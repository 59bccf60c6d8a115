import Mathlib.Tactic

/-!
# YARA-lite rules

The lexer and the parser of a small subset of YARA's rule language. A string is the list of
its characters; the source text is the list of its bytes.
-/
namespace YaraLite

abbrev Text := List Char

inductive HexByte where
  | exact (byte : UInt8)
  | wild
  | highFixed (nibble : UInt8)
  | lowFixed (nibble : UInt8)
  deriving DecidableEq, Repr

def HexByte.matches : HexByte → UInt8 → Bool
  | .exact e, b => e == b
  | .wild, _ => true
  | .highFixed h, b => b >>> 4 == h
  | .lowFixed l, b => b &&& 0xF == l

inductive Pattern where
  | text (bytes : List UInt8)
  | hex (bytes : List HexByte)
  deriving DecidableEq, Repr

structure NamedString where
  name : Text
  pattern : Pattern
  nocase : Bool
  deriving DecidableEq, Repr

inductive OfQuantifier where
  | any
  | all
  | atLeast (n : ℕ)
  deriving DecidableEq, Repr

inductive Expr where
  | ref (name : Text)
  | not (inner : Expr)
  | and (parts : List Expr)
  | or (parts : List Expr)
  | ofThem (quantifier : OfQuantifier)
  | literal (value : Bool)
  deriving Repr

structure Rule where
  name : Text
  strings : List NamedString
  condition : Expr
  deriving Repr

inductive Token where
  | ident (s : Text)
  | stringRef (s : Text)
  | quotedString (s : Text)
  | hexBlock (body : List UInt8)
  | number (n : ℕ)
  | lbrace
  | rbrace
  | lparen
  | rparen
  | colon
  | eq
  | comma
  deriving DecidableEq, Repr

/-- What an error's text prints: a token or the characters of a string. -/
inductive Shown where
  | token (t : Token)
  | chars (s : Text)
  deriving DecidableEq, Repr

inductive ParseError where
  | unexpectedToken (words : String) (shown : List Shown)
  | unexpectedEof
  | badHexByte (words : String) (shown : List Shown)
  | unknownModifier (modifier : Text)
  deriving DecidableEq, Repr

/-- The byte of an ASCII character. -/
def byte (c : Char) : UInt8 := c.toNat.toUInt8

/-- A byte as the character of its code. -/
def asChar (b : UInt8) : Char := Char.ofNat b.toNat

def isSpace (b : UInt8) : Bool :=
  b == byte ' ' || b == byte '\t' || b == byte '\r' || b == byte '\n'

def isDigit (b : UInt8) : Bool := byte '0' ≤ b && b ≤ byte '9'

def isIdentStart (b : UInt8) : Bool :=
  (byte 'a' ≤ b && b ≤ byte 'z') || (byte 'A' ≤ b && b ≤ byte 'Z') || b == byte '_'

def isIdentByte (b : UInt8) : Bool := isDigit b || isIdentStart b

def hexVal (b : UInt8) : Except ParseError UInt8 :=
  if byte '0' ≤ b ∧ b ≤ byte '9' then .ok (b - byte '0')
  else if byte 'a' ≤ b ∧ b ≤ byte 'f' then .ok (b - byte 'a' + 10)
  else if byte 'A' ≤ b ∧ b ≤ byte 'F' then .ok (b - byte 'A' + 10)
  else .error (.badHexByte "_" [.chars [asChar b]])

def intoBytes (s : Text) : List UInt8 := s.flatMap String.utf8EncodeChar

def skipLineComment (src : List UInt8) : List UInt8 := src.dropWhile (· != byte '\n')

/-- An unclosed block comment runs to the end of the source. -/
def skipBlockComment : List UInt8 → List UInt8
  | [] => []
  | [_] => []
  | a :: b :: rest =>
    if a = byte '*' ∧ b = byte '/' then rest else skipBlockComment (b :: rest)

def readHexBlock (depth : ℕ) (body : List UInt8) :
    List UInt8 → Except ParseError (Token × List UInt8)
  | [] => .error .unexpectedEof
  | c :: rest =>
    if c = byte '{' then readHexBlock (depth + 1) (body ++ [c]) rest
    else if c = byte '}' then
      if depth = 1 then .ok (.hexBlock body, rest)
      else readHexBlock (depth - 1) (body ++ [c]) rest
    else readHexBlock depth (body ++ [c]) rest

/-- The character an escape of one letter stands for. -/
def escaped (esc : UInt8) : Option Char :=
  if esc = byte 'n' then some '\n'
  else if esc = byte 't' then some '\t'
  else if esc = byte 'r' then some '\r'
  else if esc = byte '\\' then some '\\'
  else if esc = byte '"' then some '"'
  else if esc = byte '0' then some (Char.ofNat 0)
  else none

def readQuoted (out : Text) : List UInt8 → Except ParseError (Token × List UInt8)
  | [] => .error .unexpectedEof
  | c :: rest =>
    if c = byte '"' then .ok (.quotedString out, rest)
    else if c = byte '\\' then
      match rest with
      | [] => .error .unexpectedEof
      | esc :: rest =>
        match escaped esc with
        | some ch => readQuoted (out ++ [ch]) rest
        | none =>
          if esc = byte 'x' then
            match rest with
            | hi :: lo :: rest =>
              match hexVal hi, hexVal lo with
              | .ok h, .ok l => readQuoted (out ++ [asChar (h <<< 4 ||| l)]) rest
              | .error e, _ => .error e
              | .ok _, .error e => .error e
            | _ => .error .unexpectedEof
          else .error (.unexpectedToken "\\_" [.chars [asChar esc]])
    else readQuoted (out ++ [asChar c]) rest

/-- The number some decimal digits write. -/
def decimal (digits : List UInt8) : ℕ :=
  digits.foldl (fun n d => 10 * n + (d - byte '0').toNat) 0

/-- A `usize` parsed from digits, zero where it does not fit. -/
def fitOrZero (n : ℕ) : ℕ := if n < 2 ^ 64 then n else 0

def punctuation (c : UInt8) : Option Token :=
  if c = byte '}' then some .rbrace
  else if c = byte '(' then some .lparen
  else if c = byte ')' then some .rparen
  else if c = byte ':' then some .colon
  else if c = byte '=' then some .eq
  else if c = byte ',' then some .comma
  else none

theorem length_dropWhile_le (p : UInt8 → Bool) (src : List UInt8) :
    (src.dropWhile p).length ≤ src.length :=
  (List.dropWhile_suffix p).length_le

theorem skipBlockComment_length (src : List UInt8) :
    (skipBlockComment src).length ≤ src.length := by
  fun_induction skipBlockComment src with
  | case1 => exact le_rfl
  | case2 => simp
  | case3 => simp only [List.length_cons]; omega
  | case4 a b rest _ ih => simp only [List.length_cons] at ih ⊢; omega

theorem readHexBlock_length {depth : ℕ} {body src rest : List UInt8} {t : Token}
    (h : readHexBlock depth body src = .ok (t, rest)) : rest.length ≤ src.length := by
  fun_induction readHexBlock depth body src <;> simp_all
  all_goals omega

theorem readQuoted_length {out : Text} {src rest : List UInt8} {t : Token}
    (h : readQuoted out src = .ok (t, rest)) : rest.length ≤ src.length := by
  fun_induction readQuoted out src <;> simp_all
  all_goals omega

/-- The tokens of a source text after those already read. `store` is what becomes of a number
that was read: the source keeps it in a `usize`. -/
def tokenise (store : ℕ → ℕ) (out : List Token) (src : List UInt8) :
    Except ParseError (List Token) :=
  match src with
  | [] => .ok out
  | c :: rest =>
    if isSpace c then tokenise store out rest
    else if c = byte '/' ∧ rest.head? = some (byte '/') then
      have := length_dropWhile_le (· != byte '\n') rest
      tokenise store out (skipLineComment rest)
    else if c = byte '/' ∧ rest.head? = some (byte '*') then
      have := skipBlockComment_length rest.tail
      tokenise store out (skipBlockComment rest.tail)
    else if c = byte '{' then
      -- Only right after an equals sign does a brace open a hex pattern.
      if out.getLast? = some .eq then
        match h : readHexBlock 1 [] rest with
        | .error e => .error e
        | .ok (t, rest') =>
          have := readHexBlock_length h
          tokenise store (out ++ [t]) rest'
      else tokenise store (out ++ [.lbrace]) rest
    else
      match punctuation c with
      | some t => tokenise store (out ++ [t]) rest
      | none =>
        if c = byte '$' then
          have := length_dropWhile_le isIdentByte rest
          tokenise store (out ++ [.stringRef ((rest.takeWhile isIdentByte).map asChar)])
            (rest.dropWhile isIdentByte)
        else if c = byte '"' then
          match h : readQuoted [] rest with
          | .error e => .error e
          | .ok (t, rest') =>
            have := readQuoted_length h
            tokenise store (out ++ [t]) rest'
        else if isDigit c then
          have := length_dropWhile_le isDigit rest
          tokenise store (out ++ [.number (store (decimal (c :: rest.takeWhile isDigit)))])
            (rest.dropWhile isDigit)
        else if isIdentStart c then
          have := length_dropWhile_le isIdentByte rest
          tokenise store (out ++ [.ident ((c :: rest.takeWhile isIdentByte).map asChar)])
            (rest.dropWhile isIdentByte)
        else .error (.unexpectedToken "char _" [.chars [asChar c]])
termination_by src.length
decreasing_by all_goals simp_all [skipLineComment]; try omega

/-- Why a parse stops: an error of the parser, or a loop that the model cut short. -/
inductive Halt where
  | error (e : ParseError)
  | fuel
  deriving DecidableEq, Repr

abbrev Parser (α : Type) := List Token → Except Halt (α × List Token)

def unexpected (words : String) (t : Token) : Halt :=
  .error (.unexpectedToken words [.token t])

def bump : Parser Token
  | [] => .error (.error .unexpectedEof)
  | t :: ts => .ok (t, ts)

def expectIdent (want : Text) (ts : List Token) : Except Halt (List Token) := do
  let (t, ts) ← bump ts
  if t = .ident want then .ok ts
  else .error (.error (.unexpectedToken "expected `_`, got _" [.chars want, .token t]))

def expect (want : Token) (ts : List Token) : Except Halt (List Token) := do
  let (got, ts) ← bump ts
  if got = want then .ok ts
  else .error (.error (.unexpectedToken "expected _, got _" [.token want, .token got]))

def parseHexByte (hi lo : UInt8) : Except ParseError HexByte :=
  if hi = byte '?' ∧ lo = byte '?' then .ok .wild
  else if hi = byte '?' then (hexVal lo).map .lowFixed
  else if lo = byte '?' then (hexVal hi).map .highFixed
  else do
    let h ← hexVal hi
    let l ← hexVal lo
    .ok (.exact (h <<< 4 ||| l))

def parseHexBytes (body : List UInt8) : Except ParseError (List HexByte) :=
  match body with
  | [] => .ok []
  | c :: rest =>
    if isSpace c then parseHexBytes rest
    else if c = byte '/' ∧ rest.head? = some (byte '/') then
      have := length_dropWhile_le (· != byte '\n') rest
      parseHexBytes (skipLineComment rest)
    else
      match rest with
      | [] => .error (.badHexByte "trailing nibble" [])
      | lo :: rest => do
        let h ← parseHexByte c lo
        let hs ← parseHexBytes rest
        .ok (h :: hs)
termination_by body.length
decreasing_by all_goals simp_all [skipLineComment]; try omega

def parseHexPattern (body : List UInt8) : Except ParseError (List HexByte) := do
  let out ← parseHexBytes body
  if out = [] then .error (.badHexByte "empty hex pattern" []) else .ok out

/-- The modifiers after a string's value, up to the first token that is none. -/
def parseModifiers (nocase : Bool) : Parser Bool
  | .ident s :: ts =>
    if s = "nocase".toList then parseModifiers true ts
    else if s = "ascii".toList then parseModifiers nocase ts
    else if s = "wide".toList ∨ s = "fullword".toList then .error (.error (.unknownModifier s))
    else .ok (nocase, .ident s :: ts)
  | ts => .ok (nocase, ts)

def parseStringValue (ts : List Token) : Except Halt (Pattern × Bool × List Token) := do
  let (t, ts) ← bump ts
  let pattern ← match t with
    | .quotedString s => .ok (.text (intoBytes s))
    | .hexBlock body => ((parseHexPattern body).map .hex).mapError .error
    | other => .error (unexpected "string value: _" other)
  let (nocase, ts) ← parseModifiers false ts
  .ok (pattern, nocase, ts)

def parseStrings : ℕ → Parser (List NamedString)
  | 0, _ => .error .fuel
  | fuel + 1, ts =>
    match ts with
    | [] => .ok ([], [])
    | .rbrace :: _ => .ok ([], ts)
    | .stringRef name :: ts => do
      let ts ← expect .eq ts
      let (pattern, nocase, ts) ← parseStringValue ts
      let (out, ts) ← parseStrings fuel ts
      .ok (⟨name, pattern, nocase⟩ :: out, ts)
    | other :: _ =>
      if other = .ident "condition".toList then .ok ([], ts)
      else .error (unexpected "strings section: _" other)

section Condition

def ofThem (q : OfQuantifier) (ts : List Token) : Except Halt (Expr × List Token) := do
  let ts ← expectIdent "of".toList ts
  let ts ← expectIdent "them".toList ts
  .ok (.ofThem q, ts)

/-- `parseOr` stands for the parser of a whole condition, one bracket further in. -/
def parsePrimary (parseOr : Parser Expr) : Parser Expr
  | [] => .error (.error .unexpectedEof)
  | .lparen :: ts => do
    let (e, ts) ← parseOr ts
    let ts ← expect .rparen ts
    .ok (e, ts)
  | .stringRef n :: ts => .ok (.ref n, ts)
  | .number n :: ts => ofThem (.atLeast n) ts
  | other :: ts =>
    if other = .ident "true".toList then .ok (.literal true, ts)
    else if other = .ident "false".toList then .ok (.literal false, ts)
    else if other = .ident "any".toList then ofThem .any ts
    else if other = .ident "all".toList then ofThem .all ts
    else .error (unexpected "condition primary: _" other)

def parseNot (parseOr : Parser Expr) : Parser Expr
  | [] => parsePrimary parseOr []
  | t :: ts =>
    if t = .ident "not".toList then do
      let (e, ts) ← parseNot parseOr ts
      .ok (.not e, ts)
    else parsePrimary parseOr (t :: ts)

def parseParts (word : Text) (parsePart : Parser Expr) : ℕ → Parser (List Expr)
  | 0, _ => .error .fuel
  | fuel + 1, ts => do
    let (e, ts) ← parsePart ts
    if ts.head? = some (.ident word) then do
      let (es, ts) ← parseParts word parsePart fuel ts.tail
      .ok (e :: es, ts)
    else .ok ([e], ts)

/-- A single part stands for itself. -/
def joinParts (join : List Expr → Expr) : List Expr → Expr
  | [e] => e
  | es => join es

def parseAnd (parseOr : Parser Expr) (ts : List Token) : Except Halt (Expr × List Token) := do
  let (parts, ts) ← parseParts "and".toList (parseNot parseOr) (ts.length + 1) ts
  .ok (joinParts .and parts, ts)

/-- The fuel bounds how deep brackets nest. -/
def parseOr : ℕ → Parser Expr
  | 0, _ => .error .fuel
  | fuel + 1, ts => do
    let (parts, ts) ← parseParts "or".toList (parseAnd (parseOr fuel)) (ts.length + 1) ts
    .ok (joinParts .or parts, ts)

end Condition

/-- The metadata is eaten up to the next section. -/
def skipMeta : List Token → List Token
  | [] => []
  | t :: ts =>
    if t = .ident "strings".toList ∨ t = .ident "condition".toList ∨ t = .rbrace then t :: ts
    else skipMeta ts

/-- The sections of a rule; one given again replaces the one before. -/
def parseBody : ℕ → List NamedString → Option Expr → Parser (List NamedString × Option Expr)
  | 0, _, _, _ => .error .fuel
  | _ + 1, _, _, [] => .error (.error .unexpectedEof)
  | fuel + 1, strings, condition, t :: ts =>
    if t = .rbrace then .ok ((strings, condition), ts)
    else if t = .ident "meta".toList then do
      let ts ← expect .colon ts
      parseBody fuel strings condition (skipMeta ts)
    else if t = .ident "strings".toList then do
      let ts ← expect .colon ts
      let (strings, ts) ← parseStrings (ts.length + 1) ts
      parseBody fuel strings condition ts
    else if t = .ident "condition".toList then do
      let ts ← expect .colon ts
      let (e, ts) ← parseOr (ts.length + 1) ts
      parseBody fuel strings (some e) ts
    else .error (unexpected "rule body: _" t)

/-- The qualifier in front of `rule`. -/
def skipQualifier (ts : List Token) : List Token :=
  if ts.head? = some (.ident "private".toList) ∨ ts.head? = some (.ident "global".toList)
  then ts.tail else ts

def skipIdents : List Token → List Token
  | .ident _ :: ts => skipIdents ts
  | ts => ts

/-- The tags after a rule's name. -/
def skipTags (ts : List Token) : List Token :=
  if ts.head? = some .colon then skipIdents ts.tail else ts

def parseRuleName (ts : List Token) : Except Halt (Text × List Token) := do
  let (t, ts) ← bump ts
  match t with
  | .ident n => .ok (n, ts)
  | other => .error (unexpected "rule name: _" other)

def parseRule (ts : List Token) : Except Halt (Rule × List Token) := do
  let ts ← expectIdent "rule".toList (skipQualifier ts)
  let (name, ts) ← parseRuleName ts
  let ts ← expect .lbrace (skipTags ts)
  let ((strings, condition), ts) ← parseBody (ts.length + 1) [] none ts
  match condition with
  | some condition => .ok (⟨name, strings, condition⟩, ts)
  | none => .error (.error (.unexpectedToken "missing `condition:` section" []))

def parseAll : ℕ → List Token → Except Halt (List Rule)
  | _, [] => .ok []
  | 0, _ => .error .fuel
  | fuel + 1, ts => do
    let (rule, ts) ← parseRule ts
    let rules ← parseAll fuel ts
    .ok (rule :: rules)

/-- The rules of a source text, its numbers kept by `store`. -/
def parseStored (store : ℕ → ℕ) (src : List UInt8) : Except Halt (List Rule) := do
  let tokens ← (tokenise store [] src).mapError .error
  parseAll tokens.length tokens

def parseRules (src : List UInt8) : Except Halt (List Rule) := parseStored fitOrZero src

end YaraLite

import OpenPubusb.Names

/-! Subscription attribute filters: the expression tree, its evaluation, and
the parser. Parsing follows `grammar.pest` under the semantics of parsing
expression grammars: choices are ordered, repetition is greedy, and blanks
may stand between the items of a non-atomic sequence. It yields a raw tree
whose strings are still escaped; `build` then unescapes them. -/

namespace OpenPubusb

inductive CompareOp where
  | eq
  | ne
  deriving DecidableEq, Repr

inductive Expr where
  | compare (attr : String) (op : CompareOp) (value : String)
  | hasAttr (attr : String)
  | hasPrefix (attr start : String)
  | not (e : Expr)
  | and (operands : List Expr)
  | or (operands : List Expr)

mutual

def Expr.matches (attrs : Attributes) : Expr → Bool
  | .compare attr op value =>
    match attrs.get attr with
    | none => false
    | some actual =>
      match op with
      | .eq => actual == value
      | .ne => actual != value
  | .hasAttr attr => attrs.contains attr
  | .hasPrefix attr start =>
    match attrs.get attr with
    | none => false
    | some v => startsWith v start
  | .not e => !e.matches attrs
  | .and operands => Expr.allMatch attrs operands
  | .or operands => Expr.anyMatch attrs operands

def Expr.allMatch (attrs : Attributes) : List Expr → Bool
  | [] => true
  | e :: es => e.matches attrs && Expr.allMatch attrs es

def Expr.anyMatch (attrs : Attributes) : List Expr → Bool
  | [] => false
  | e :: es => e.matches attrs || Expr.anyMatch attrs es

end

inductive RawKey where
  | identifier (chars : List Char)
  | quoted (raw : List Char)

inductive RawExpr where
  | compare (attr : RawKey) (op : CompareOp) (value : List Char)
  | hasAttr (attr : RawKey)
  | hasPrefix (attr : RawKey) (start : List Char)
  | not (e : RawExpr)
  | and (operands : List RawExpr)
  | or (operands : List RawExpr)

abbrev Parse (α : Type) := List Char → Option (α × List Char)

def isBlank (c : Char) : Bool := c == ' ' || c == '\t' || c == '\r' || c == '\n'

def skip (cs : List Char) : List Char := cs.dropWhile isBlank

def token (s : String) (cs : List Char) : Option (List Char) :=
  if s.toList.isPrefixOf cs then some (cs.drop s.toList.length) else none

def isHexDigit (c : Char) : Bool :=
  ('0' ≤ c && c ≤ '9') || ('a' ≤ c && c ≤ 'f') || ('A' ≤ c && c ≤ 'F')

/-- The longest run of plain characters and escapes, and what follows it. -/
def stringInner : List Char → List Char × List Char
  | [] => ([], [])
  | '"' :: rest => ([], '"' :: rest)
  | '\\' :: 'u' :: a :: b :: c :: d :: rest =>
    if isHexDigit a && isHexDigit b && isHexDigit c && isHexDigit d then
      ('\\' :: 'u' :: a :: b :: c :: d :: (stringInner rest).1, (stringInner rest).2)
    else ([], '\\' :: 'u' :: a :: b :: c :: d :: rest)
  | '\\' :: e :: rest =>
    if e == '"' || e == '\\' || e == 'n' || e == 't' then
      ('\\' :: e :: (stringInner rest).1, (stringInner rest).2)
    else ([], '\\' :: e :: rest)
  | ['\\'] => ([], ['\\'])
  | c :: rest => (c :: (stringInner rest).1, (stringInner rest).2)

def parseString : Parse (List Char)
  | '"' :: cs =>
    match (stringInner cs).2 with
    | '"' :: rest => some ((stringInner cs).1, rest)
    | _ => none
  | _ => none

def isIdentifierChar (c : Char) : Bool := isAsciiAlphanumeric c || c == '_' || c == '-'

def parseIdentifier : Parse (List Char)
  | c :: cs =>
    if isAsciiAlphabetic c then
      some (c :: cs.takeWhile isIdentifierChar, cs.dropWhile isIdentifierChar)
    else none
  | [] => none

def parseKey (cs : List Char) : Option (RawKey × List Char) :=
  match parseIdentifier cs with
  | some (name, rest) => some (.identifier name, rest)
  | none => (parseString cs).map (fun r => (.quoted r.1, r.2))

def parseAttributesKey (sep : String) (cs : List Char) : Option (RawKey × List Char) := do
  let cs ← token "attributes" cs
  let cs ← token sep (skip cs)
  parseKey (skip cs)

def parseAttribute (cs : List Char) : Option (RawKey × List Char) := parseAttributesKey "." cs

def parseCompareOp (cs : List Char) : Option (CompareOp × List Char) :=
  match token "!=" cs with
  | some rest => some (.ne, rest)
  | none => (token "=" cs).map (fun rest => (.eq, rest))

def parseComparison (cs : List Char) : Option (RawExpr × List Char) := do
  let (attr, cs) ← parseAttribute cs
  let (op, cs) ← parseCompareOp (skip cs)
  let (value, cs) ← parseString (skip cs)
  some (.compare attr op value, cs)

def parseHasAttr (cs : List Char) : Option (RawExpr × List Char) := do
  let (attr, cs) ← parseAttributesKey ":" cs
  some (.hasAttr attr, cs)

def parseFunction (cs : List Char) : Option (RawExpr × List Char) := do
  let cs ← token "hasPrefix" cs
  let cs ← token "(" (skip cs)
  let (attr, cs) ← parseAttribute (skip cs)
  let cs ← token "," (skip cs)
  let (start, cs) ← parseString (skip cs)
  let cs ← token ")" (skip cs)
  some (.hasPrefix attr start, cs)

def parseParens (expr : Parse RawExpr) (cs : List Char) : Option (RawExpr × List Char) := do
  let cs ← token "(" cs
  let (e, cs) ← expr (skip cs)
  let cs ← token ")" (skip cs)
  some (e, cs)

def parsePrimary (expr : Parse RawExpr) (cs : List Char) : Option (RawExpr × List Char) :=
  match parseComparison cs with
  | some r => some r
  | none =>
    match parseHasAttr cs with
    | some r => some r
    | none =>
      match parseFunction cs with
      | some r => some r
      | none => parseParens expr cs

def parseNegation (cs : List Char) : Option (List Char) :=
  match token "NOT" cs with
  | some (c :: rest) => if isBlank c then some (skip rest) else token "-" cs
  | _ => token "-" cs

def parseUnary (expr : Parse RawExpr) (cs : List Char) : Option (RawExpr × List Char) :=
  match parseNegation cs with
  | some rest => (parsePrimary expr (skip rest)).map (fun r => (.not r.1, r.2))
  | none => parsePrimary expr (skip cs)

/-- Greedy repetition of `keyword unary`, at most `fuel` times. -/
def parseMany (keyword : String) (unary : Parse RawExpr) : Nat → List Char →
    List RawExpr × List Char
  | 0, cs => ([], cs)
  | fuel + 1, cs =>
    match (token keyword (skip cs)).bind (fun rest => unary (skip rest)) with
    | some (e, rest) =>
      (e :: (parseMany keyword unary fuel rest).1, (parseMany keyword unary fuel rest).2)
    | none => ([], cs)

def parseChain (keyword : String) (unary : Parse RawExpr) (cs : List Char) :
    Option (List RawExpr × List Char) :=
  match parseMany keyword unary cs.length cs with
  | ([], _) => none
  | (operands, rest) => some (operands, rest)

/-- Each nested level consumes a parenthesis, so the length of the input
bounds the depth. -/
def parseExpr : Nat → Parse RawExpr
  | 0, _ => none
  | fuel + 1, cs => do
    let (first, cs) ← parseUnary (parseExpr fuel) cs
    match parseChain "AND" (parseUnary (parseExpr fuel)) cs with
    | some (operands, rest) => some (.and (first :: operands), rest)
    | none =>
      match parseChain "OR" (parseUnary (parseExpr fuel)) cs with
      | some (operands, rest) => some (.or (first :: operands), rest)
      | none => some (first, cs)

def invalidFilter (message : String) : Error := .invalidArgument "filter" message

def hexValue (c : Char) : Nat :=
  if '0' ≤ c ∧ c ≤ '9' then c.toNat - 48
  else if 'a' ≤ c ∧ c ≤ 'f' then c.toNat - 87
  else c.toNat - 55

def unescape : List Char → Result (List Char)
  | [] => .ok []
  | '\\' :: '"' :: rest => do return '"' :: (← unescape rest)
  | '\\' :: '\\' :: rest => do return '\\' :: (← unescape rest)
  | '\\' :: 'n' :: rest => do return '\n' :: (← unescape rest)
  | '\\' :: 't' :: rest => do return '\t' :: (← unescape rest)
  | '\\' :: 'u' :: a :: b :: c :: d :: rest => do
    let code := ((hexValue a * 16 + hexValue b) * 16 + hexValue c) * 16 + hexValue d
    if isHexDigit a && isHexDigit b && isHexDigit c && isHexDigit d && decide (code.isValidChar) then
      return Char.ofNat code :: (← unescape rest)
    else throw (invalidFilter "invalid \\u escape")
  | '\\' :: _ => .error (invalidFilter "invalid escape sequence")
  | c :: rest => do return c :: (← unescape rest)

def buildString (raw : List Char) : Result String := do
  let chars ← unescape raw
  return String.ofList chars

def buildKey : RawKey → Result String
  | .identifier chars => .ok (String.ofList chars)
  | .quoted raw => buildString raw

mutual

def buildExpr : RawExpr → Result Expr
  | .compare attr op value => do
    let attr ← buildKey attr
    let value ← buildString value
    return .compare attr op value
  | .hasAttr attr => do return .hasAttr (← buildKey attr)
  | .hasPrefix attr start => do
    let attr ← buildKey attr
    let start ← buildString start
    return .hasPrefix attr start
  | .not e => do return .not (← buildExpr e)
  | .and operands => do return .and (← buildExprs operands)
  | .or operands => do return .or (← buildExprs operands)

def buildExprs : List RawExpr → Result (List Expr)
  | [] => .ok []
  | e :: es => do
    let e ← buildExpr e
    let es ← buildExprs es
    return e :: es

end

def parseFilter (input : String) : Result Expr :=
  if input.length > maxFilterChars then
    .error (invalidFilter s!"filter exceeds the {maxFilterChars}-character limit")
  else
    match parseExpr (input.length + 1) (skip input.toList) with
    | some (raw, rest) =>
      if (skip rest).isEmpty then buildExpr raw else .error (invalidFilter "syntax error")
    | none => .error (invalidFilter "syntax error")

/-- The `White_Space` characters that `str::trim` removes. -/
def isWhitespace (c : Char) : Bool :=
  (9 ≤ c.toNat && c.toNat ≤ 13) || c.toNat == 32 || c.toNat == 133 || c.toNat == 160 ||
    c.toNat == 5760 || (8192 ≤ c.toNat && c.toNat ≤ 8202) || c.toNat == 8232 ||
    c.toNat == 8233 || c.toNat == 8239 || c.toNat == 8287 || c.toNat == 12288

/-- A blank filter compiles to `none`, which matches everything. -/
def compileFilter (filter : String) : Result (Option Expr) :=
  if filter.toList.all isWhitespace then .ok none
  else do return some (← parseFilter filter)

end OpenPubusb

import LuaCapsule.Number.Numeral
import LuaCapsule.Text.Utf8

/-! The tokens of a program text. Scanning never fails: what cannot be read ends the list as a
fault, which matters only to a reader who gets that far. A token keeps its spelling, for
messages, and the line on which it ends. -/

namespace LuaCapsule.Lua

/-- What a token is. -/
inductive Token where
  | name (b : Bytes)
  | keyword (w : String)
  | str (b : Bytes)
  | int (i : Int64)
  | float (x : Binary64)
  /-- A punctuation mark, or a single byte that begins no token. -/
  | mark (m : String)
  | stray (b : UInt8)
  | eof
  | fault (message : String)
  deriving DecidableEq, Inhabited

/-- A token with its spelling and the line on which it ends. -/
structure Lexeme where
  token : Token
  /-- What a message about the token shows, if it shows anything. -/
  near : Bytes
  line : Nat
  deriving Inhabited

namespace Lexeme

def keywords : List String :=
  ["and", "break", "do", "else", "elseif", "end", "false", "for", "function", "goto", "if", "in",
    "local", "nil", "not", "or", "repeat", "return", "then", "true", "until", "while"]

def isNameStart (c : UInt8) : Bool := Bytes.isAlpha c || c == 95

def isNameByte (c : UInt8) : Bool := Bytes.isAlnum c || c == 95

def isNewline (c : UInt8) : Bool := c == 10 || c == 13

/-- The rest after a line break, of which two different bytes make one. -/
def afterBreak (c : UInt8) : List UInt8 → List UInt8
  | d :: cs => if isNewline d && d != c then cs else d :: cs
  | [] => []

/-- A spelling between quotes. -/
def quoted (b : Bytes) : Bytes := Bytes.ofString "'" ++ b ++ Bytes.ofString "'"

/-- A spelling that a message shows up to its first zero byte. -/
def spelled (b : Bytes) : Bytes :=
  quoted (match b.find? (· == 0) 0 with | some i => b.slice 0 i | none => b)

def atEnd : Bytes := Bytes.ofString "<eof>"

/-! ### Strings -/

/-- What reading a string or comment gives: its bytes, or a fault, with the rest and the line. -/
structure Reading where
  token : Token
  near : Bytes
  rest : List UInt8
  line : Nat
  deriving Inhabited

def Reading.fault (message : String) (near : Bytes) (line : Nat) : Reading :=
  ⟨.fault message, near, [], line⟩

/-- What an escape gives: bytes and the rest, or a message and how many bytes it shows. -/
inductive Escape where
  | bytes (b : List UInt8) (rest : List UInt8)
  | fault (message : String) (shown : Nat)

/-- The digits of `\u`, with how many bytes are behind them. -/
def readCodePoint : List UInt8 → Nat → Nat → Escape
  | c :: cs, shown, n =>
    if Bytes.isHexDigit c then
      if n > 0x7ffffff then .fault "UTF-8 value too large" (shown + 1)
      else readCodePoint cs (shown + 1) (n * 16 + Bytes.hexValue c)
    else if c == 125 then .bytes (Utf8.encode n) cs
    else .fault "missing '\x7d'" (shown + 1)
  | [], shown, _ => .fault "missing '\x7d'" shown

/-- One escape, from the byte after the backslash on. -/
def readEscape (cs : List UInt8) : Escape :=
  match cs with
  | 97 :: r => .bytes [7] r
  | 98 :: r => .bytes [8] r
  | 102 :: r => .bytes [12] r
  | 110 :: r => .bytes [10] r
  | 114 :: r => .bytes [13] r
  | 116 :: r => .bytes [9] r
  | 118 :: r => .bytes [11] r
  | 92 :: r => .bytes [92] r
  | 34 :: r => .bytes [34] r
  | 39 :: r => .bytes [39] r
  | 120 :: r =>
    match r with
    | a :: r' =>
      if Bytes.isHexDigit a then
        match r' with
        | b :: r'' =>
          if Bytes.isHexDigit b then
            .bytes [(Bytes.hexValue a * 16 + Bytes.hexValue b).toUInt8] r''
          else .fault "hexadecimal digit expected" 3
        | [] => .fault "hexadecimal digit expected" 2
      else .fault "hexadecimal digit expected" 2
    | [] => .fault "hexadecimal digit expected" 1
  | 117 :: r =>
    match r with
    | 123 :: c :: r' =>
      if Bytes.isHexDigit c then readCodePoint r' 3 (Bytes.hexValue c)
      else .fault "hexadecimal digit expected" 3
    | 123 :: [] => .fault "hexadecimal digit expected" 2
    | _ => .fault "missing '\x7b'" (min 2 cs.length)
  | _ =>
    let digits := (cs.takeWhile Bytes.isDigit).take 3
    let n := Numeral.valueIn 10 digits
    if digits.isEmpty then .fault "invalid escape sequence" (min 1 cs.length)
    else if n > 255 then .fault "decimal escape too large" (min (digits.length + 1) cs.length)
    else .bytes [n.toUInt8] (cs.drop digits.length)

/-- Drops blanks and counts their line breaks. -/
def skipBlanks : Nat → List UInt8 → Nat → List UInt8 × Nat
  | 0, cs, line => (cs, line)
  | fuel + 1, cs, line =>
    match cs with
    | c :: r =>
      if isNewline c then skipBlanks fuel (afterBreak c r) (line + 1)
      else if Bytes.isSpace c then skipBlanks fuel r line
      else (cs, line)
    | [] => ([], line)

/-- The rest of a string in quotes; `acc` is what was read, last byte first. -/
def readQuoted (quote : UInt8) : Nat → List UInt8 → Nat → List UInt8 → Reading
  | 0, _, line, _ => .fault "unfinished string" atEnd line
  | fuel + 1, cs, line, acc =>
    let shown (more : List UInt8) : Bytes :=
      spelled (Bytes.ofList (quote :: acc.reverse ++ more))
    match cs with
    | [] => .fault "unfinished string" atEnd line
    | c :: r =>
      if c == quote then
        let b := Bytes.ofList acc.reverse
        ⟨.str b, shown [quote], r, line⟩
      else if isNewline c then .fault "unfinished string" (shown []) line
      else if c == 92 then
        match r with
        | [] => .fault "unfinished string" atEnd line
        | d :: r' =>
          if isNewline d then readQuoted quote fuel (afterBreak d r') (line + 1) (10 :: acc)
          else if d == 122 then
            let (rest, line) := skipBlanks (r'.length + 1) r' line
            readQuoted quote fuel rest line acc
          else
            match readEscape r with
            | .bytes b rest => readQuoted quote fuel rest line (b.reverse ++ acc)
            | .fault m n => .fault m (shown (92 :: r.take n)) line
      else readQuoted quote fuel r line (c :: acc)

/-- The rest of a long string of a given level, after its opening bracket. -/
def readLong (level : Nat) (onEnd : Reading) : Nat → List UInt8 → Nat → List UInt8 → Reading
  | 0, _, _, _ => onEnd
  | fuel + 1, cs, line, acc =>
    match cs with
    | [] => { onEnd with line := line }
    | c :: r =>
      let mid := r.takeWhile (· == 61)
      if c == 93 && mid.length == level && (r.drop level).head? == some 93 then
        let b := Bytes.ofList acc.reverse
        let eqs := Bytes.ofList mid
        let near := Bytes.ofString "[" ++ eqs ++ Bytes.ofString "[" ++ b ++ Bytes.ofString "]" ++ eqs
          ++ Bytes.ofString "]"
        ⟨.str b, spelled near, r.drop (level + 1), line⟩
      else if isNewline c then readLong level onEnd fuel (afterBreak c r) (line + 1) (10 :: acc)
      else readLong level onEnd fuel r line (c :: acc)

/-- A long string or comment, after its opening bracket and with its first line break left
out. -/
def readLongBody (what : String) (level : Nat) (cs : List UInt8) (line : Nat) : Reading :=
  let onEnd := Reading.fault
    (s!"unfinished long {what} (starting at line {line})") atEnd line
  match cs with
  | c :: r =>
    if isNewline c then readLong level onEnd (cs.length + 1) (afterBreak c r) (line + 1) []
    else readLong level onEnd (cs.length + 1) cs line []
  | [] => onEnd

/-- The level of a long bracket, after its first `[`, and the rest. -/
def longOpening? (cs : List UInt8) : Option (Nat × List UInt8) :=
  let eqs := cs.takeWhile (· == 61)
  match cs.drop eqs.length with
  | 91 :: r => some (eqs.length, r)
  | _ => none

/-! ### Numerals -/

/-- The spelling of a numeral: digits, points, and exponents with their signs. -/
def numeralSpelling (hex : Bool) : Nat → List UInt8 → List UInt8 × List UInt8
  | 0, cs => ([], cs)
  | fuel + 1, cs =>
    match cs with
    | [] => ([], [])
    | c :: r =>
      if Bytes.toLower c == (if hex then 112 else 101) then
        match r with
        | d :: r' =>
          if d == 43 || d == 45 then
            let (s, rest) := numeralSpelling hex fuel r'
            (c :: d :: s, rest)
          else
            let (s, rest) := numeralSpelling hex fuel r
            (c :: s, rest)
        | [] => ([c], [])
      else if Bytes.isHexDigit c || c == 46 then
        let (s, rest) := numeralSpelling hex fuel r
        (c :: s, rest)
      else if isNameStart c then ([c], r)
      else ([], cs)

/-- A numeral from its first byte on. -/
def readNumeral (c : UInt8) (r : List UInt8) (line : Nat) : Reading :=
  let (spelling, rest) :=
    match c, r with
    | 48, x :: r' =>
      if x == 120 || x == 88 then
        let (s, rest) := numeralSpelling true (r'.length + 1) r'
        (c :: x :: s, rest)
      else
        let (s, rest) := numeralSpelling false (r.length + 1) r
        (c :: s, rest)
    | _, _ =>
      let (s, rest) := numeralSpelling false (r.length + 1) r
      (c :: s, rest)
  let b := Bytes.ofList spelling
  match Numeral.read? b with
  | some (.int i) => ⟨.int i, spelled b, rest, line⟩
  | some (.float x) => ⟨.float x, spelled b, rest, line⟩
  | none => .fault "malformed number" (spelled b) line

/-! ### Tokens -/

/-- The punctuation marks, longer ones before those they begin with. -/
def marks : List String :=
  ["...", "..", "==", "~=", "<=", ">=", "<<", ">>", "//", "::", "+", "-", "*", "/", "%", "^", "#",
    "&", "~", "|", "<", ">", "=", "(", ")", "\x7b", "\x7d", "[", "]", ";", ":", ",", "."]

def markSpellings : List (String × List UInt8) := marks.map fun m => (m, (Bytes.ofString m).data.toList)

/-- The mark that a text starts with. -/
def mark? (cs : List UInt8) : Option (String × List UInt8) :=
  (markSpellings.find? fun m => m.2.isPrefixOf cs).map fun m => (m.1, cs.drop m.2.length)

/-- The next token, from a byte that is no blank. -/
def readToken (c : UInt8) (r : List UInt8) (line : Nat) : Reading :=
  if isNameStart c then
    let b := Bytes.ofList (c :: r.takeWhile isNameByte)
    let rest := r.dropWhile isNameByte
    match b.toText? with
    | some w =>
      if keywords.contains w then ⟨.keyword w, quoted b, rest, line⟩
      else ⟨.name b, quoted b, rest, line⟩
    | none => ⟨.name b, quoted b, rest, line⟩
  else if Bytes.isDigit c then readNumeral c r line
  else if c == 34 || c == 39 then readQuoted c (r.length + 1) r line []
  else if c == 46 && (r.head?.any Bytes.isDigit) then readNumeral c r line
  else
    match if c == 91 then longOpening? r else none with
    | some (level, body) => readLongBody "string" level body line
    | none =>
      if c == 91 && r.head? == some 61 then
        .fault "invalid long string delimiter"
          (spelled (Bytes.ofList (c :: r.takeWhile (· == 61)))) line
      else
        match mark? (c :: r) with
        | some (m, rest) => ⟨.mark m, quoted (Bytes.ofString m), rest, line⟩
        | none =>
          let near :=
            if 32 ≤ c && c ≤ 126 then quoted (Bytes.ofList [c])
            else quoted (Bytes.ofString s!"<\\{c.toNat}>")
          ⟨.stray c, near, r, line⟩

/-- What follows a comment whose two dashes are behind, with its line; or a fault. -/
def afterComment (r : List UInt8) (line : Nat) : Reading :=
  let short : Reading := ⟨.eof, .empty, r.dropWhile (fun c => !isNewline c), line⟩
  match r with
  | 91 :: r' =>
    match longOpening? r' with
    | some (level, body) => readLongBody "comment" level body line
    | none => short
  | _ => short

/-- All tokens, up to the end of the text or the first fault. -/
def scanFrom : Nat → List UInt8 → Nat → List Lexeme → List Lexeme
  | 0, _, line, acc => (⟨.eof, atEnd, line⟩ :: acc).reverse
  | fuel + 1, cs, line, acc =>
    match cs with
    | [] => (⟨.eof, atEnd, line⟩ :: acc).reverse
    | c :: r =>
      if isNewline c then scanFrom fuel (afterBreak c r) (line + 1) acc
      else if Bytes.isSpace c then scanFrom fuel r line acc
      else if c == 45 && r.head? == some 45 then
        let skipped := afterComment (r.drop 1) line
        match skipped.token with
        | .fault m => (⟨.fault m, skipped.near, skipped.line⟩ :: acc).reverse
        | _ => scanFrom fuel skipped.rest skipped.line acc
      else
        let t := readToken c r line
        match t.token with
        | .fault m => (⟨.fault m, t.near, t.line⟩ :: acc).reverse
        | token => scanFrom fuel t.rest t.line (⟨token, t.near, t.line⟩ :: acc)

/-- The tokens of a text. -/
def scan (source : Bytes) : List Lexeme :=
  let cs := source.data.toList
  scanFrom (cs.length + 1) cs 1 []

end Lexeme

end LuaCapsule.Lua

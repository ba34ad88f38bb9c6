import LuaCapsule.Text.Bytes

/-! Patterns: byte classes with repetition, captures, balanced pairs and frontiers, matched by
backtracking. Each step of a match goes on strictly further right in the pattern, so the
length of the pattern bounds the depth of a match. -/

namespace LuaCapsule.Lua.Pattern

/-- How far a capture reaches. -/
inductive Extent where
  | unfinished
  /-- It captures its own position. -/
  | position
  | length (n : Nat)
  deriving DecidableEq, Inhabited

/-- A capture: where it starts and how far it reaches. -/
abbrev Captures := Array (Nat × Extent)

/-- A match that succeeded: its end and its captures. -/
abbrev Match := Option (Nat × Captures)

def maxCaptures : Nat := 32

def escape : UInt8 := 37

/-- The class that a letter names, negated for a capital letter. -/
def inClass (c letter : UInt8) : Bool :=
  let negate (b : Bool) : Bool := if Bytes.isUpper letter then !b else b
  match Bytes.toLower letter with
  | 97 => negate (Bytes.isAlpha c)
  | 99 => negate (Bytes.isControl c)
  | 100 => negate (Bytes.isDigit c)
  | 103 => negate (Bytes.isGraph c)
  | 108 => negate (Bytes.isLower c)
  | 112 => negate (Bytes.isPunct c)
  | 115 => negate (Bytes.isSpace c)
  | 117 => negate (Bytes.isUpper c)
  | 119 => negate (Bytes.isAlnum c)
  | 120 => negate (Bytes.isHexDigit c)
  | 122 => negate (c == 0)
  | _ => letter == c

/-- The end of a set whose members start at `p`. -/
def setEnd (pat : Bytes) : Nat → Nat → Except String Nat
  | 0, _ => .error "malformed pattern (missing ']')"
  | fuel + 1, p =>
    if p ≥ pat.size then .error "malformed pattern (missing ']')"
    else
      let p' := if pat.at0 p == escape && p + 1 < pat.size then p + 2 else p + 1
      if p' < pat.size && pat.at0 p' == 93 then .ok (p' + 1) else setEnd pat fuel p'

/-- The end of the class that starts at `p`. -/
def classEnd (pat : Bytes) (p : Nat) : Except String Nat :=
  if pat.at0 p == escape then
    if p + 1 ≥ pat.size then .error "malformed pattern (ends with '%')" else .ok (p + 2)
  else if pat.at0 p == 91 then
    setEnd pat (pat.size + 1) (if pat.at0 (p + 1) == 94 then p + 2 else p + 1)
  else .ok (p + 1)

/-- Is a byte among the members of a set from `p` on, below `last`? -/
def hasMember (pat : Bytes) (c : UInt8) (last : Nat) : Nat → Nat → Bool
  | 0, _ => false
  | fuel + 1, p =>
    if p ≥ last then false
    else if pat.at0 p == escape then
      inClass c (pat.at0 (p + 1)) || hasMember pat c last fuel (p + 2)
    else if pat.at0 (p + 1) == 45 && p + 2 < last then
      (pat.at0 p ≤ c && c ≤ pat.at0 (p + 2)) || hasMember pat c last fuel (p + 3)
    else pat.at0 p == c || hasMember pat c last fuel (p + 1)

/-- Is a byte in the set between `p` and its closing bracket? -/
def inSet (pat : Bytes) (c : UInt8) (p closing : Nat) : Bool :=
  if pat.at0 (p + 1) == 94 then !hasMember pat c closing (pat.size + 1) (p + 2)
  else hasMember pat c closing (pat.size + 1) (p + 1)

/-- Does the class between `p` and `ep` match the byte at `s`? -/
def matchesOne (src pat : Bytes) (s p ep : Nat) : Bool :=
  if s ≥ src.size then false
  else
    let c := src.at0 s
    let d := pat.at0 p
    if d == 46 then true
    else if d == escape then inClass c (pat.at0 (p + 1))
    else if d == 91 then inSet pat c p (ep - 1)
    else d == c

/-- How many bytes from `s` on the class matches, besides `n` that are behind. -/
def countMatches (src pat : Bytes) (p ep : Nat) : Nat → Nat → Nat → Nat
  | 0, _, n => n
  | fuel + 1, s, n =>
    if matchesOne src pat s p ep then countMatches src pat p ep fuel (s + 1) (n + 1) else n

/-- The end of a balanced pair of which `depth` openings are behind. -/
def balancedEnd (src : Bytes) (opening closing : UInt8) : Nat → Nat → Nat → Option Nat
  | 0, _, _ => none
  | fuel + 1, s, depth =>
    if s ≥ src.size then none
    else
      let c := src.at0 s
      if c == closing then
        if depth ≤ 1 then some (s + 1) else balancedEnd src opening closing fuel (s + 1) (depth - 1)
      else if c == opening then balancedEnd src opening closing fuel (s + 1) (depth + 1)
      else balancedEnd src opening closing fuel (s + 1) depth

/-- The first success of a match that goes on after `n` or fewer repetitions. -/
def longest (go : Nat → Except String Match) (s : Nat) : Nat → Except String Match
  | 0 => go s
  | n + 1 => do
    match ← go (s + n + 1) with
    | some m => return some m
    | none => longest go s n

/-- The first success of a match that goes on after as few repetitions as possible. -/
def shortest (go : Nat → Except String Match) (one : Nat → Bool) : Nat → Nat → Except String Match
  | 0, _ => .ok none
  | fuel + 1, s => do
    match ← go s with
    | some m => return some m
    | none => if one s then shortest go one fuel (s + 1) else return none

/-- The innermost capture that is not finished. -/
def toClose? (caps : Captures) : Option Nat :=
  (List.range caps.size).reverse.find? fun i => (caps.getD i default).2 == .unfinished

/-- How deep matches within a match can be nested. -/
def maxNesting : Nat := 199

/-- Matches the pattern from `p` on against the subject from `s` on. What follows a repetition or
the edge of a capture is a match within the match; `depth` of them can be nested. -/
def matchFrom (src pat : Bytes) : Nat → Nat → Nat → Nat → Captures → Except String Match
  | 0, _, _, _, _ => .error "pattern too complex"
  | fuel + 1, depth, s, p, caps =>
    let next (s p : Nat) : Except String Match := matchFrom src pat fuel depth s p caps
    let nested (caps : Captures) (p s : Nat) : Except String Match :=
      if depth == 0 then .error "pattern too complex"
      else matchFrom src pat fuel (depth - 1) s p caps
    if p ≥ pat.size then .ok (some (s, caps))
    else
      let simple : Except String Match := do
        let ep ← classEnd pat p
        let suffix := if ep < pat.size then pat.at0 ep else 0
        let one := matchesOne src pat s p ep
        if suffix == 63 then
          if one then
            match ← nested caps (ep + 1) (s + 1) with
            | some m => return some m
            | none => next s (ep + 1)
          else next s (ep + 1)
        else if suffix == 43 then
          if one then
            longest (nested caps (ep + 1)) (s + 1) (countMatches src pat p ep src.size (s + 1) 0)
          else return none
        else if suffix == 42 then
          if one then longest (nested caps (ep + 1)) s (countMatches src pat p ep src.size s 0)
          else next s (ep + 1)
        else if suffix == 45 then
          if one then
            shortest (nested caps (ep + 1)) (fun s => matchesOne src pat s p ep) (src.size + 2) s
          else next s (ep + 1)
        else if one then next (s + 1) ep
        else return none
      let c := pat.at0 p
      if c == 40 then
        if caps.size ≥ maxCaptures then .error "too many captures"
        else if pat.at0 (p + 1) == 41 then nested (caps.push (s, .position)) (p + 2) s
        else nested (caps.push (s, .unfinished)) (p + 1) s
      else if c == 41 then
        match toClose? caps with
        | some i =>
          let start := (caps.getD i default).1
          nested (caps.setIfInBounds i (start, .length (s - start))) (p + 1) s
        | none => .error "invalid pattern capture"
      else if c == 36 && p + 1 == pat.size then
        .ok (if s == src.size then some (s, caps) else none)
      else if c == escape && pat.at0 (p + 1) == 98 then
        if p + 3 ≥ pat.size then .error "malformed pattern (missing arguments to '%b')"
        else if s < src.size && src.at0 s == pat.at0 (p + 2) then
          match balancedEnd src (pat.at0 (p + 2)) (pat.at0 (p + 3)) (src.size + 1) (s + 1) 1 with
          | some e => next e (p + 4)
          | none => .ok none
        else .ok none
      else if c == escape && pat.at0 (p + 1) == 102 then
        if pat.at0 (p + 2) != 91 then .error "missing '[' after '%f' in pattern"
        else do
          let ep ← classEnd pat (p + 2)
          let before := if s == 0 then 0 else src.at0 (s - 1)
          if !inSet pat before (p + 2) (ep - 1) && inSet pat (src.at0 s) (p + 2) (ep - 1) then
            next s ep
          else return none
      else if c == escape && p + 1 < pat.size && Bytes.isDigit (pat.at0 (p + 1)) then
        let d := (pat.at0 (p + 1)).toNat - 48
        match caps[d - 1]? with
        | some (start, .length n) =>
          if d == 0 then .error "invalid capture index %0 in pattern"
          else if s + n ≤ src.size && src.extract start (start + n) == src.extract s (s + n) then
            next (s + n) (p + 2)
          else .ok none
        | some (_, .position) => if d == 0 then .error "invalid capture index %0 in pattern" else .ok none
        | _ => .error s!"invalid capture index %{d} in pattern"
      else simple

/-- Matches a pattern at a place of a subject. The pattern is meant from `p` on. -/
def matchAt (src pat : Bytes) (p s : Nat) : Except String Match :=
  matchFrom src pat (pat.size + 2) maxNesting s p #[]

/-- Looks for a match at `s` or, unless it is anchored, further right. -/
def search (src pat : Bytes) (p : Nat) (anchored : Bool) : Nat → Nat →
    Except String (Option (Nat × Nat × Captures))
  | 0, _ => .ok none
  | fuel + 1, s => do
    match ← matchAt src pat p s with
    | some (e, caps) => return some (s, e, caps)
    | none =>
      if anchored || s ≥ src.size then return none
      else search src pat p anchored fuel (s + 1)

/-- Does a text mean nothing special as a pattern? -/
def isPlain (pat : Bytes) : Bool :=
  (pat.find? (fun c => (Bytes.ofString "^$*+?.([%-").data.contains c) 0).isNone

/-- What a capture gives. -/
inductive Captured where
  | text (b : Bytes)
  | position (n : Nat)
  deriving Inhabited

/-- The capture of a number, counted from zero; without captures the whole match is one. -/
def capture (src : Bytes) (caps : Captures) (start stop i : Nat) : Except String Captured :=
  match caps[i]? with
  | some (s, .length n) => .ok (.text (src.extract s (s + n)))
  | some (s, .position) => .ok (.position (s + 1))
  | some (_, .unfinished) => .error "unfinished capture"
  | none =>
    if i == 0 then .ok (.text (src.extract start stop))
    else .error s!"invalid capture index %{i + 1}"

/-- All captures of a match, or the whole match if there are none. -/
def captures (src : Bytes) (caps : Captures) (start stop : Nat) : Except String (List Captured) :=
  (List.range (max caps.size 1)).mapM (capture src caps start stop)

end LuaCapsule.Lua.Pattern

import TaggedHeader.Text.Utf8

/-!
# Glob patterns

A glob describes the whole of a path, byte by byte. It is a sequence of tokens, and what a token can match
at the start of some bytes is given by the list of what may be left behind it (`Token.rests`); a pattern
follows all these possibilities at once, so matching never backtracks.
-/

namespace TaggedHeader

open Text

namespace Glob

/-- A part of a glob. -/
inductive Token where
  /-- The character itself. -/
  | literal (c : Char)
  /-- Any one byte, `?`. -/
  | anyByte
  /-- Any run of bytes, `*`. -/
  | anyRun
  /-- At the beginning, any directories or none, `**/`. -/
  | leadingDirectories
  /-- At the end, anything below a directory, `/**`. -/
  | trailingContent
  /-- In the middle, any directories or none, `/**/`. -/
  | innerDirectories
  /-- One byte of some ranges of characters, or of none of them, `[a-z]` and `[!a-z]`. -/
  | charClass (negated : Bool) (ranges : List (Char × Char))
  /-- One of several sequences, `{a,b}`. -/
  | alternatives (branches : List (List Token))
deriving Repr

/-- The byte that separates names in a path. -/
def slash : UInt8 := 0x2F

/-- The byte that no wildcard without bounds passes. -/
def newline : UInt8 := 0x0A

/-- What is left behind a beginning of the bytes, each of which `isPassed`. -/
def afterRun (isPassed : UInt8 → Bool) : List UInt8 → List (List UInt8)
  | [] => [[]]
  | b :: rest => (b :: rest) :: if isPassed b then afterRun isPassed rest else []

/-- What is left behind each slash on the first line. -/
def afterSlashes : List UInt8 → List (List UInt8)
  | [] => []
  | b :: rest =>
    if b = newline then []
    else if b = slash then rest :: afterSlashes rest
    else afterSlashes rest

/-- What is left behind some bytes that have to come first. -/
def afterBytes : (expected text : List UInt8) → List (List UInt8)
  | [], text => [text]
  | e :: expected, b :: text => if e = b then afterBytes expected text else []
  | _ :: _, [] => []

/-- Whether a range of characters holds a byte. Of characters with several bytes the range joins the last
byte of the first to the first byte of the last, and holds all other bytes by themselves. -/
def rangeHolds (range : Char × Char) (b : UInt8) : Bool :=
  let low := String.utf8EncodeChar range.1
  let high := String.utf8EncodeChar range.2
  if range.1 = range.2 then low.contains b
  else low.dropLast.contains b || high.tail.contains b ||
    (low.getLastD 0 ≤ b && b ≤ high.headD 0)

mutual

/-- Whether a token stands for nothing: a choice without a branch that says something. -/
def Token.isVoid : Token → Bool
  | .alternatives branches => areVoidBranches branches
  | _ => false

/-- Whether every token of a sequence stands for nothing. -/
def isVoid : List Token → Bool
  | [] => true
  | token :: tokens => token.isVoid && isVoid tokens

/-- Whether every branch of a choice stands for nothing. -/
def areVoidBranches : List (List Token) → Bool
  | [] => true
  | branch :: branches => isVoid branch && areVoidBranches branches

end

mutual

/-- What may be left behind a token at the start of some bytes. With `separated`, wildcards stay within
one name. -/
def Token.rests (separated : Bool) : Token → List UInt8 → List (List UInt8)
  | .literal c, text => afterBytes (String.utf8EncodeChar c) text
  | .anyByte, b :: rest => if b = (if separated then slash else newline) then [] else [rest]
  | .anyByte, [] => []
  | .anyRun, text => afterRun (· != if separated then slash else newline) text
  | .leadingDirectories, text => text :: afterSlashes text
  | .trailingContent, text => (afterBytes [slash] text).flatMap (afterRun (· != newline))
  | .innerDirectories, text => (afterBytes [slash] text).flatMap fun rest => rest :: afterSlashes rest
  | .charClass negated ranges, b :: rest =>
    if ranges.any (rangeHolds · b) != negated then [rest] else []
  | .charClass _ _, [] => []
  | .alternatives branches, text =>
    if areVoidBranches branches then [text] else branchRests separated branches text

/-- What may be left behind a sequence of tokens, from any of several starts. -/
def follow (separated : Bool) : List Token → List (List UInt8) → List (List UInt8)
  | [], texts => texts
  | token :: tokens, texts =>
    follow separated tokens (texts.flatMap (token.rests separated)).eraseDups

/-- What may be left behind a branch of a choice; a branch that stands for nothing does not count. -/
def branchRests (separated : Bool) : List (List Token) → List UInt8 → List (List UInt8)
  | [], _ => []
  | branch :: branches, text =>
    (if isVoid branch then [] else follow separated branch [text]) ++
      branchRests separated branches text

end

end Glob

/-- A glob, read. -/
structure Glob where
  tokens : List Glob.Token
  /-- Whether wildcards stop at slashes. -/
  separated : Bool
deriving Repr

/-- Whether a pattern describes a path. A pattern that is only `**` describes every path. -/
def Glob.isMatch (glob : Glob) (path : Text) : Bool :=
  match glob.tokens with
  | [.leadingDirectories] => true
  | tokens => (Glob.follow glob.separated tokens [Text.bytes path]).contains []

end TaggedHeader

import TextrpBriij.Api.Errors
import TextrpBriij.Foundation.Fallible
import TextrpBriij.Foundation.Glob

/-! # Matching globs

A glob is compiled to a regular expression, in which each run of wildcards is one counted
repetition of the dot. A glob without wildcards is compared without one. Texts are ASCII here.
-/
namespace TextrpBriij.Push
open Api

@[ext] structure AsciiChar where
  char : Char
  ascii : char.toNat < 128
deriving DecidableEq

abbrev Text := List AsciiChar

theorem toLower_ascii (c : AsciiChar) : c.char.toLower.toNat < 128 := by
  have hall : ∀ n < 128, (Char.ofNat n).toLower.toNat < 128 := by decide
  have hchar := hall c.char.toNat c.ascii
  rwa [Char.ofNat_toNat] at hchar

def lower (c : AsciiChar) : AsciiChar := ⟨c.char.toLower,toLower_ascii c⟩

def toLowercase (s : Text) : Text := s.map lower

def questionMark : AsciiChar := ⟨'?',by decide⟩
def star : AsciiChar := ⟨'*',by decide⟩
def newline : AsciiChar := ⟨'\n',by decide⟩

def isWildcard (c : AsciiChar) : Bool := c = questionMark ∨ c = star

inductive GlobMatchType where
  | whole
  | word
deriving DecidableEq

/-- A part of a regular expression: an escaped text, or the dot with a count. -/
inductive Chunk where
  | escaped (text : Text)
  | dots (count : ℕ) (orMore : Bool)

/-- The regular expression of the chunks between the anchors of the match type, without regard to
case. -/
structure Regex where
  matchType : GlobMatchType
  chunks : List Chunk

/-- What `WILDCARD_RUN` captures: runs of other characters, each with the wildcards after it. A round
takes at least one character, so that the length of the glob is enough fuel. -/
def wildcardRuns : ℕ → Text → List (Text × Text)
  | 0,_ => []
  | _ + 1,[] => []
  | fuel + 1,glob =>
    let chunk := glob.takeWhile fun c => !isWildcard c
    let rest := glob.dropWhile fun c => !isWildcard c
    (chunk,rest.takeWhile isWildcard) :: wildcardRuns fuel (rest.dropWhile isWildcard)

def chunksOf (captures : Text × Text) : List Chunk :=
  .escaped captures.1 ::
    if captures.2 = [] then []
    else [.dots (captures.2.countP (· = questionMark)) (decide (star ∈ captures.2))]

def regexOf (glob : Text) (matchType : GlobMatchType) : Regex :=
  ⟨matchType,(wildcardRuns glob.length glob).flatMap chunksOf⟩

/-- The texts that may be left after the chunk. The dot does not match a newline. -/
def Chunk.rests : Chunk → Text → List Text
  | escaped text,s =>
    if toLowercase (s.take text.length) = toLowercase text then [s.drop text.length] else []
  | dots count orMore,s =>
    ((List.range (s.length + 1)).filter fun n =>
      (if orMore then count ≤ n else count = n) && (s.take n).all (· ≠ newline)).map s.drop

def restsOf : List Chunk → Text → List Text
  | [],s => [s]
  | chunk :: chunks,s => (chunk.rests s).flatMap (restsOf chunks)

/-- `\w` -/
def isWordChar (c : AsciiChar) : Bool := c.char.isAlphanum || c.char = '_'

def wordBefore (s : Text) (i : ℕ) : Bool := (s.take i).getLast?.any isWordChar

def wordAfter (s : Text) (i : ℕ) : Bool := (s.drop i).head?.any isWordChar

/-- `(?:^|\b|\W)` ends at the position. -/
def startsWord (s : Text) (i : ℕ) : Bool :=
  i = 0 || wordBefore s i != wordAfter s i || (s.take i).getLast?.any (!isWordChar ·)

/-- `(?:\b|\W|$)` starts at the position. -/
def endsWord (s : Text) (i : ℕ) : Bool :=
  wordBefore s i != wordAfter s i || (s.drop i).head?.any (!isWordChar ·) || i = s.length

def Regex.isMatch (regex : Regex) (s : Text) : Bool :=
  match regex.matchType with
  | .whole => (restsOf regex.chunks s).any (·.isEmpty)
  | .word => (List.range (s.length + 1)).any fun start =>
      startsWord s start && (restsOf regex.chunks (s.drop start)).any fun rest =>
        endsWord s (s.length - rest.length)

inductive Matcher where
  | regex (regex : Regex)
  | whole (whole : Text)
  /-- The regular expression is compiled when it is needed first. -/
  | word (word : Text) (regex : Option Regex)

section
variable (fits : Regex → Bool)

/-- `glob_to_regex`. Regular expressions whose programs get too large are not built. -/
def globToRegex (glob : Text) (matchType : GlobMatchType) : Except Error Regex :=
  if fits (regexOf glob matchType) then pure (regexOf glob matchType)
  else throw (.raised "CompiledTooBig")

def getGlobMatcher (glob : Text) (matchType : GlobMatchType) : Except Error Matcher :=
  if glob.any isWildcard then do
    pure (.regex (← globToRegex fits glob matchType))
  else if matchType = .whole then pure (.whole (toLowercase glob))
  else pure (.word (toLowercase glob) none)

def Matcher.isMatch (haystack : Text) : Matcher → Except Error (Bool × Matcher)
  | .regex compiled => pure (compiled.isMatch (toLowercase haystack),.regex compiled)
  | .whole text => pure (decide (text = toLowercase haystack),.whole text)
  | .word text cached =>
    if ¬text <:+: toLowercase haystack then pure (false,.word text cached)
    else do
      let compiled ← match cached with
        | some compiled => pure compiled
        | none => globToRegex fits text .word
      pure (compiled.isMatch (toLowercase haystack),.word text (some compiled))

structure ServerAclEvaluator where
  allowIpLiterals : Bool
  allow : List Regex
  deny : List Regex

def newServerAclEvaluator (allowIpLiterals : Bool) (allow deny : List Text) :
    Except Error ServerAclEvaluator := do
  let allow ← allow.mapM (globToRegex fits · .whole)
  let deny ← deny.mapM (globToRegex fits · .whole)
  pure ⟨allowIpLiterals,allow,deny⟩

end

/-- `isIpv4` is whether the address parser of the standard library accepts the name. -/
def ServerAclEvaluator.serverMatchesAclEvent (isIpv4 : Text → Bool) (acl : ServerAclEvaluator)
    (serverName : Text) : Bool :=
  if !acl.allowIpLiterals && (serverName.head?.any (·.char = '[') || isIpv4 serverName) then false
  else if acl.deny.any (·.isMatch serverName) then false
  else acl.allow.any (·.isMatch serverName)

end TextrpBriij.Push

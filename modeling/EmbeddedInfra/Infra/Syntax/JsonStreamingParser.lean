import EmbeddedInfra.Infra.Syntax.Json

set_option autoImplicit false

/-! # The streaming JSON parser

`infra::JsonStreamingObjectParser` reads a document that arrives in parts. It keeps a stack of
parsers, one for each object and array that is open, and tells their visitors (values of a type
`ν`) what it finds. What the visitors do is a function of the callbacks made so far. An assertion
that fails ends the run: the error is the list of callbacks made until then.
-/

namespace EmbeddedInfra.JsonStreaming

open EmbeddedInfra.Json (Text byte quote backslash isspace isdigit isalpha)

/-! ## Tokens -/

inductive TokenState
  | open
  | done
  | stringOpen
  | stringOpenAndEscaped
  | stringOverflowOpen
  | unicodeValueOpen
  | numberOpen
  | numberFractionalOpen
  | numberExponentOpen
  | identifierOpen
  deriving DecidableEq, Repr

inductive Token
  | error
  | colon
  | comma
  | leftBrace
  | rightBrace
  | leftBracket
  | rightBracket
  | string
  | stringOverflow
  | number
  | true_
  | false_
  | null
  deriving DecidableEq, Repr

/-- The members of `JsonSubParser` that `FeedToken` works on. The number and its sign are not
initialised by the constructor; they are written before they are read. -/
structure Tokens where
  tokenState : TokenState := .open
  token : Token := .error
  tokenNumber : Int64 := 0
  tokenSign : Int64 := 1
  unicodeIndex : Nat := 0
  unicode : UInt16 := 0
  valueBuffer : Text := []
  deriving DecidableEq, Repr

namespace Tokens

def foundToken (t : Tokens) (found : Token) : Tokens :=
  { t with token := found, tokenState := .done }

def full (maxValue : Nat) (t : Tokens) : Bool := t.valueBuffer.length == maxValue

def addToValueBuffer (maxValue : Nat) (t : Tokens) (c : UInt8) (saveValue inString : Bool) : Tokens :=
  if t.full maxValue then
    if inString then { t with tokenState := .stringOverflowOpen } else t.foundToken .error
  else if saveValue then { t with valueBuffer := t.valueBuffer ++ [c] }
  else t

def processEscapedData (maxValue : Nat) (t : Tokens) (c : UInt8) (saveValue : Bool) : Tokens :=
  if c = quote then t.addToValueBuffer maxValue quote saveValue true
  else if c = backslash then t.addToValueBuffer maxValue backslash saveValue true
  else if c = byte 'b' then t.addToValueBuffer maxValue 0x08 saveValue true
  else if c = byte 'f' then t.addToValueBuffer maxValue 0x0c saveValue true
  else if c = byte 'n' then t.addToValueBuffer maxValue 0x0a saveValue true
  else if c = byte 'r' then t.addToValueBuffer maxValue 0x0d saveValue true
  else if c = byte 't' then t.addToValueBuffer maxValue 0x09 saveValue true
  else if c = byte 'u' then { t with tokenState := .unicodeValueOpen }
  else t.addToValueBuffer maxValue c saveValue true

/-- The value of a character as a digit of a number. -/
def digit (c : UInt8) : Int64 := Int64.ofNat c.toNat - 48

/-- The character that starts a token. The assignment of one character to the value buffer needs
room for it. -/
def startToken (maxValue : Nat) (t : Tokens) (c : UInt8) : Option Tokens :=
  if c = byte ':' then some (t.foundToken .colon)
  else if c = byte ',' then some (t.foundToken .comma)
  else if c = byte '{' then some (t.foundToken .leftBrace)
  else if c = byte '}' then some (t.foundToken .rightBrace)
  else if c = byte '[' then some (t.foundToken .leftBracket)
  else if c = byte ']' then some (t.foundToken .rightBracket)
  else if c = quote then some { t with tokenState := .stringOpen }
  else if c = byte '-' then some { t with tokenState := .numberOpen, tokenNumber := 0, tokenSign := -1 }
  else if isalpha c then
    if maxValue = 0 then none else some { t with tokenState := .identifierOpen, valueBuffer := [c] }
  else if isdigit c then
    some { t with tokenState := .numberOpen, tokenNumber := digit c, tokenSign := 1 }
  else some (t.foundToken .error)

/-- A character of a string, outside an escape. -/
def stringCharacter (maxValue : Nat) (saveValue : Bool) (t : Tokens) (c : UInt8) : Tokens :=
  if c = backslash then { t with tokenState := .stringOpenAndEscaped }
  else if c = quote then
    t.foundToken (if t.tokenState = .stringOpen then .string else .stringOverflow)
  else t.addToValueBuffer maxValue c saveValue true

/-- The loop over the characters of a string: it ends with the data, or when the string is left. -/
def feedString (maxValue : Nat) (saveValue : Bool) : Tokens → UInt8 → Text → Tokens × Text
  | t, c, [] => (t.stringCharacter maxValue saveValue c, [])
  | t, c, d :: data =>
      let t := t.stringCharacter maxValue saveValue c
      if t.tokenState ≠ .stringOpen ∧ t.tokenState ≠ .stringOverflowOpen then (t, d :: data)
      else feedString maxValue saveValue t d data

/-- The digits of a unicode escape, until the fourth. -/
def unicodeDigit (maxValue : Nat) (saveValue : Bool) (t : Tokens) (c : UInt8) : Tokens :=
  let t :=
    if byte '0' ≤ c ∧ c ≤ byte '9' then
      { t with unicodeIndex := t.unicodeIndex + 1
               unicode := t.unicode * 16 + (c.toUInt16 - (byte '0').toUInt16) }
    else if byte 'a' ≤ c ∧ c ≤ byte 'f' then
      { t with unicodeIndex := t.unicodeIndex + 1
               unicode := t.unicode * 16 + (c.toUInt16 - (byte 'a').toUInt16 + 10) }
    else if byte 'A' ≤ c ∧ c ≤ byte 'F' then
      { t with unicodeIndex := t.unicodeIndex + 1
               unicode := t.unicode * 16 + (c.toUInt16 - (byte 'A').toUInt16 + 10) }
    else foundToken { t with unicodeIndex := 0, unicode := 0 } .error
  if t.unicodeIndex = 4 then
    let t := { t with tokenState := .stringOpen }
    let t := if t.full maxValue then t.foundToken .error
      else t.addToValueBuffer maxValue t.unicode.toUInt8 saveValue true
    { t with unicodeIndex := 0, unicode := 0 }
  else t

/-- The token that an identifier is. -/
def identifier (value : Text) : Token :=
  if value = "true".toList.map byte then .true_
  else if value = "false".toList.map byte then .false_
  else if value = "null".toList.map byte then .null
  else .error

/-- One turn of the loop of `FeedToken`, for data that starts with the given character. -/
def feedTurn (maxValue : Nat) (saveValue : Bool) (t : Tokens) (c : UInt8) (data : Text) :
    Option (Tokens × Text) :=
  match t.tokenState with
  | .numberOpen =>
      if isdigit c then some ({ t with tokenNumber := t.tokenNumber * 10 + digit c }, data)
      else if c = byte '.' then some ({ t with tokenState := .numberFractionalOpen }, data)
      else some (t.foundToken .number, c :: data)
  | .numberFractionalOpen =>
      if isdigit c then some (t, data)
      else if c = byte 'e' ∨ c = byte 'E' then some ({ t with tokenState := .numberExponentOpen }, data)
      else some (t.foundToken .number, c :: data)
  | .numberExponentOpen =>
      if isdigit c ∨ c = byte '+' ∨ c = byte '-' then some (t, data)
      else some (t.foundToken .number, c :: data)
  | .identifierOpen =>
      if isalpha c then some (t.addToValueBuffer maxValue c saveValue false, data)
      else some (t.foundToken (identifier t.valueBuffer), c :: data)
  | .open =>
      if isspace c then some (t, data.dropWhile isspace)
      else (t.startToken maxValue c).map fun t => (t, data)
  | .stringOpen => some (feedString maxValue saveValue t c data)
  | .stringOverflowOpen => some (feedString maxValue saveValue t c data)
  | .stringOpenAndEscaped =>
      some (processEscapedData maxValue { t with tokenState := .stringOpen } c saveValue, data)
  | .unicodeValueOpen => some (t.unicodeDigit maxValue saveValue c, data)
  | .done => none

/-- The loop of `FeedToken`; the first argument bounds its turns. -/
def feedTokenLoop (maxValue : Nat) (saveValue : Bool) : Nat → Tokens → Text → Option (Tokens × Text)
  | _, t, [] => some (t, [])
  | 0, t, data => some (t, data)
  | bound + 1, t, c :: data =>
      if t.tokenState = .done then some (t, c :: data)
      else do
        let (t, data) ← t.feedTurn maxValue saveValue c data
        feedTokenLoop maxValue saveValue bound t data

def feedToken (maxValue : Nat) (saveValue : Bool) (t : Tokens) (data : Text) :
    Option (Tokens × Text) :=
  feedTokenLoop maxValue saveValue (data.length + 1) t data

end Tokens

/-! ## Visitors -/

/-- A call of a visitor's method. The methods of an object's visitor get a tag, those of an array's
visitor do not. -/
inductive Event
  | visitString (tag : Option Text) (value : Text)
  | visitNumber (tag : Option Text) (value : Int64)
  | visitBoolean (tag : Option Text) (value : Bool)
  | visitNull (tag : Option Text)
  | visitObject (tag : Option Text)
  | visitArray (tag : Option Text)
  | close
  | parseError
  | semanticError
  | stringOverflow
  deriving DecidableEq, Repr

structure Callback (ν : Type) where
  visitor : ν
  event : Event
  deriving DecidableEq, Repr

/-- What a visitor does in a call: the visitor it returns for a nested value, and the parsers, counted
from the bottom of the stack, whose `SemanticError` it calls. -/
structure Response (ν : Type) where
  nested : Option ν
  semanticErrors : List Nat

/-! ## The stack of parsers -/

/-- The states of both kinds of parsers; `init`, `tagClosed` and `valueExpected` are states of an
object's parser only. -/
inductive State
  | init
  | initialOpen
  | open
  | tagClosed
  | valueExpected
  | closed
  | skipNestedObject
  | skipNestedArray
  | parseError
  | semanticError
  deriving DecidableEq, Repr

/-- Whether a parser is a `JsonSubObjectParser` or a `JsonSubArrayParser`. -/
inductive Kind
  | object
  | array
  deriving DecidableEq, Repr

structure SubParser (ν : Type) where
  kind : Kind
  visitor : ν
  state : State
  tagBuffer : Text
  skipSubObjects : UInt32 := 0
  tokens : Tokens := {}

/-- The parser: the buffers' sizes and the stack, its top first. The callbacks made so far stand
beside them, the latest first. -/
structure Parser (ν : Type) where
  maxTag : Nat
  maxValue : Nat
  maxNesting : Nat
  subObjects : List (SubParser ν)
  history : List (Callback ν)

/-- A run that may end in a failed assertion. -/
abbrev Result (ν α : Type) := Except (List (Callback ν)) α

section

variable {ν : Type} (respond : List (Callback ν) → Response ν)

namespace SubParser

def failed (sub : SubParser ν) : Bool := sub.state = .parseError ∨ sub.state = .semanticError

def saveValue (sub : SubParser ν) : Bool :=
  sub.state ≠ .skipNestedObject ∧ sub.state ≠ .skipNestedArray

def semanticError (sub : SubParser ν) : SubParser ν := { sub with state := .semanticError }

/-- The value for a visitor's tag parameter. -/
def tag (sub : SubParser ν) : Option Text :=
  match sub.kind with
  | .object => some sub.tagBuffer
  | .array => none

end SubParser

namespace Parser

/-- The constructor: the stack must have room for the parser of the whole document. -/
def create (maxTag maxValue maxNesting : Nat) (visitor : ν) : Result ν (Parser ν) :=
  if maxNesting = 0 then throw []
  else return {
    maxTag := maxTag, maxValue := maxValue, maxNesting := maxNesting, history := []
    subObjects := [{ kind := .object, visitor := visitor, state := .init, tagBuffer := [] }] }

def full (p : Parser ν) : Bool := p.subObjects.length == p.maxNesting

/-- Replace the parser on top of the stack. -/
def setBack (p : Parser ν) (sub : SubParser ν) : Parser ν :=
  { p with subObjects := sub :: p.subObjects.tail }

/-- The calls of `SemanticError`, on parsers counted from the bottom of the stack. -/
def raise (subObjects : List (SubParser ν)) (positions : List Nat) : List (SubParser ν) :=
  positions.foldl (fun subs i =>
    if i < subs.length then subs.modify (subs.length - 1 - i) SubParser.semanticError else subs) subObjects

/-- A call of a visitor, and the visitor it returns. -/
def call (p : Parser ν) (visitor : ν) (event : Event) : Parser ν × Option ν :=
  let history := { visitor := visitor, event := event } :: p.history
  let response := respond history
  ({ p with history := history, subObjects := raise p.subObjects response.semanticErrors },
    response.nested)

/-- What a token leads to: the parser afterwards, and whether `Feed` returns at once. -/
abbrev Handled (ν : Type) := Parser ν × Bool

/-- The parser on top enters a state. -/
def become (p : Parser ν) (sub : SubParser ν) (state : State) : Handled ν :=
  (p.setBack { sub with state := state }, false)

/-- A value, of which the visitor of the parser on top is told. The parser of an object clears the
tag before the call, that of an array does so for a number only. -/
def visit (p : Parser ν) (sub : SubParser ν) (event : Event) (clearTag : Bool) : Handled ν :=
  let sub := { sub with state := .closed, tagBuffer := if clearTag then [] else sub.tagBuffer }
  (((p.setBack sub).call respond sub.visitor event).1, false)

/-- After the visitor was asked for a nested visitor: the new parser gets it, or is removed and the
nested value is skipped. The parser of an object then clears its tag. -/
def enterNested (p : Parser ν) (nested : Option ν) (skip : State) : Parser ν :=
  match p.subObjects, nested with
  | child :: parent :: outer, some visitor =>
      { p with subObjects := { child with visitor := visitor } :: clearTag parent :: outer }
  | _ :: parent :: outer, none =>
      { p with subObjects := clearTag { parent with state := skip } :: outer }
  | _, _ => p
where
  clearTag (sub : SubParser ν) : SubParser ν :=
    match sub.kind with
    | .object => { sub with tagBuffer := [] }
    | .array => sub

/-- A nested object or array starts. The parser that is pushed has no visitor yet; it stands here with
that of its parent, and is not asked for it before it gets its own. -/
def nest (p : Parser ν) (sub : SubParser ν) (kind : Kind) (event : Event) (skip : State) : Handled ν :=
  let sub := { sub with state := .closed, tokens := { sub.tokens with tokenState := .open } }
  if p.full then
    (p.setBack (enterNested.clearTag { sub with state := skip }), true)
  else
    let child : SubParser ν :=
      { kind := kind, visitor := sub.visitor, state := .initialOpen
        tagBuffer := match kind with | .object => [] | .array => sub.tagBuffer
        tokens := { valueBuffer := sub.tokens.valueBuffer } }
    let p := p.setBack sub
    let (p, nested) := { p with subObjects := child :: p.subObjects }.call respond sub.visitor event
    (p.enterNested nested skip, true)

/-- The end of an object or array. -/
def close (p : Parser ν) (sub : SubParser ν) : Handled ν :=
  let p := (p.call respond sub.visitor .close).1
  ({ p with subObjects := p.subObjects.tail }, true)

/-- A token inside a nested value that is skipped. -/
def skip (p : Parser ν) (sub : SubParser ν) (left right : Token) : Handled ν :=
  if sub.tokens.token = right then
    if sub.skipSubObjects = 0 then p.become sub .closed
    else (p.setBack { sub with skipSubObjects := sub.skipSubObjects - 1 }, false)
  else if sub.tokens.token = left then
    (p.setBack { sub with skipSubObjects := sub.skipSubObjects + 1 }, false)
  else (p.setBack sub, false)

/-- The branches of `JsonSubObjectParser::Feed`, for the parser on top and the token it has found. -/
def handleObjectToken (p : Parser ν) (sub : SubParser ν) : Handled ν :=
  let state := sub.state
  let token := sub.tokens.token
  if (state = .initialOpen ∨ state = .open) ∧ (token = .string ∨ token = .stringOverflow) then
    p.become { sub with tagBuffer := sub.tokens.valueBuffer.take p.maxTag } .tagClosed
  else if state = .tagClosed ∧ token = .colon then
    p.become sub .valueExpected
  else if state = .valueExpected ∧ token = .string then
    p.visit respond sub (.visitString sub.tag sub.tokens.valueBuffer) true
  else if state = .valueExpected ∧ token = .stringOverflow then
    p.visit respond sub .stringOverflow true
  else if state = .closed ∧ token = .comma then
    p.become sub .open
  else if state = .init then
    p.become sub (if token = .leftBrace then .initialOpen else .parseError)
  else if state = .valueExpected ∧ token = .leftBrace then
    p.nest respond sub .object (.visitObject sub.tag) .skipNestedObject
  else if state = .valueExpected ∧ token = .leftBracket then
    p.nest respond sub .array (.visitArray sub.tag) .skipNestedArray
  else if state = .valueExpected ∧ token = .number then
    p.visit respond sub (.visitNumber sub.tag (sub.tokens.tokenSign * sub.tokens.tokenNumber)) true
  else if state = .valueExpected ∧ token = .false_ then
    p.visit respond sub (.visitBoolean sub.tag false) true
  else if state = .valueExpected ∧ token = .true_ then
    p.visit respond sub (.visitBoolean sub.tag true) true
  else if state = .valueExpected ∧ token = .null then
    p.visit respond sub (.visitNull sub.tag) true
  else if (state = .initialOpen ∨ state = .closed) ∧ token = .rightBrace then
    p.close respond sub
  else if state = .skipNestedObject then
    p.skip sub .leftBrace .rightBrace
  else if state = .skipNestedArray then
    p.skip sub .leftBracket .rightBracket
  else p.become sub .parseError

/-- The branches of `JsonSubArrayParser::Feed`, for the parser on top and the token it has found. -/
def handleArrayToken (p : Parser ν) (sub : SubParser ν) : Handled ν :=
  let state := sub.state
  let token := sub.tokens.token
  if (state = .initialOpen ∨ state = .open) ∧ token = .string then
    p.visit respond sub (.visitString sub.tag sub.tokens.valueBuffer) false
  else if (state = .initialOpen ∨ state = .open) ∧ token = .stringOverflow then
    p.visit respond sub .stringOverflow false
  else if (state = .initialOpen ∨ state = .open) ∧ token = .false_ then
    p.visit respond sub (.visitBoolean sub.tag false) false
  else if (state = .initialOpen ∨ state = .open) ∧ token = .true_ then
    p.visit respond sub (.visitBoolean sub.tag true) false
  else if (state = .initialOpen ∨ state = .open) ∧ token = .null then
    p.visit respond sub (.visitNull sub.tag) false
  else if (state = .initialOpen ∨ state = .open) ∧ token = .number then
    p.visit respond sub (.visitNumber sub.tag (sub.tokens.tokenSign * sub.tokens.tokenNumber)) true
  else if (state = .initialOpen ∨ state = .closed) ∧ token = .rightBracket then
    (p.setBack { sub with state := .closed }).close respond sub
  else if (state = .initialOpen ∨ state = .open) ∧ token = .leftBrace then
    p.nest respond sub .object (.visitObject sub.tag) .skipNestedObject
  else if (state = .initialOpen ∨ state = .open) ∧ token = .leftBracket then
    p.nest respond sub .array (.visitArray sub.tag) .skipNestedArray
  else if state = .skipNestedObject then
    p.skip sub .leftBrace .rightBrace
  else if state = .skipNestedArray then
    p.skip sub .leftBracket .rightBracket
  else if state = .closed ∧ token = .comma then
    p.become sub .open
  else p.become sub .parseError

def handleToken (p : Parser ν) (sub : SubParser ν) : Handled ν :=
  match sub.kind with
  | .object => p.handleObjectToken respond sub
  | .array => p.handleArrayToken respond sub

/-- The end of a turn that did not return: the value is cleared, and the next token may come. -/
def nextToken (p : Parser ν) : Parser ν :=
  match p.subObjects with
  | [] => p
  | sub :: outer =>
      { p with subObjects :=
          { sub with tokens := { sub.tokens with valueBuffer := [], tokenState := .open } } :: outer }

/-- The calls of one method of the visitors of these parsers, in turn. -/
def callAll (p : Parser ν) (subs : List (SubParser ν)) (event : Event) : Parser ν :=
  subs.foldl (fun p sub => (p.call respond sub.visitor event).1) p

/-- `ReportParseError`, and the test for a semantic error that comes after it: a visitor that raises
one while it is told of the parse error makes `ReportSemanticError` walk over the stack that has just
been emptied. -/
def reportParseError (p : Parser ν) : Result ν (Parser ν) :=
  let p := p.callAll respond p.subObjects .parseError
  match p.subObjects with
  | { state := .semanticError, .. } :: _ => throw p.history
  | _ => return { p with subObjects := [] }

/-- `ReportSemanticError`. The visitor of the parser on top is not told. -/
def reportSemanticError (p : Parser ν) : Result ν (Parser ν) :=
  return { p.callAll respond p.subObjects.tail .semanticError with subObjects := [] }

/-- What comes after the loop of a sub-parser's `Feed`: an error is reported, and it ends the data. -/
def exitFeed (p : Parser ν) (data : Text) : Result ν (Parser ν × Text) :=
  match p.subObjects with
  | { state := .parseError, .. } :: _ => do return (← p.reportParseError respond, [])
  | { state := .semanticError, .. } :: _ => do return (← p.reportSemanticError respond, [])
  | _ => return (p, data)

/-- `Feed` of the parser on top; the first argument bounds the turns of its loop. -/
def subFeed : Nat → Parser ν → Text → Result ν (Parser ν × Text)
  | 0, p, data => p.exitFeed respond data
  | bound + 1, p, data =>
      match p.subObjects with
      | [] => return (p, data)
      | sub :: _ =>
          if data = [] ∨ sub.failed then p.exitFeed respond data
          else
            match sub.tokens.feedToken p.maxValue sub.saveValue data with
            | none => throw p.history
            | some (tokens, data) =>
                let sub := { sub with tokens := tokens }
                let p := p.setBack sub
                if tokens.tokenState ≠ .done then p.exitFeed respond data
                else
                  let (p, returned) := p.handleToken respond sub
                  if returned then return (p, data)
                  else subFeed bound p.nextToken data

/-- The loop of `Feed`; the first argument bounds its turns. -/
def feedLoop : Nat → Parser ν → Text → Result ν (Parser ν)
  | 0, p, _ => return p
  | bound + 1, p, data =>
      if data = [] ∨ p.subObjects = [] then return p
      else do
        let (p, data) ← p.subFeed respond (2 * data.length + 2) data
        feedLoop bound p data

/-- `JsonStreamingObjectParser::Feed` -/
def feed (p : Parser ν) (data : Text) : Result ν (Parser ν) :=
  feedLoop respond (2 * data.length + 1) p data

end Parser

/-- The callbacks made in a run, the latest first. -/
def historyOf : Result ν (Parser ν) → List (Callback ν)
  | .ok p => p.history
  | .error history => history

/-- A parser is constructed and fed these chunks, one by one; the callbacks this makes, the latest first. -/
def callbacks (maxTag maxValue maxNesting : Nat) (visitor : ν) (chunks : List Text) :
    List (Callback ν) :=
  historyOf do
    let p ← Parser.create maxTag maxValue maxNesting visitor
    chunks.foldlM (Parser.feed respond) p

end

end EmbeddedInfra.JsonStreaming

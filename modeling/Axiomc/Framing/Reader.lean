import Axiomc.Foundation.Fallible
import Axiomc.Foundation.Text

/-!
# Framed messages

The embedding of `framed_protocol.rs`: `read_message` reads the header lines of one message from a
`BufRead`, then as many body bytes as `Content-Length` declares.  The writer is `write_message` of the
two servers, which differ in the protocol name of their errors alone.

A `BufRead` is a list of non-empty chunks: `fill_buf` shows the rest of the first one, `consume` drops
bytes from it, and an empty buffer means the end of the stream.  A method that reads is a `Fallible`
computation over what is left of the input, so the position is known after an error too.

What the source takes from outside is in `Host`: whether memory for a body is granted, and the texts
the standard library has for its errors.
-/

namespace Axiomc.Framing

open Foundation

def maxHeaderBytes : Nat := 64 * 1024

def maxHeaderLineBytes : Nat := 8 * 1024

def maxHeaderCount : Nat := 64

def maxBodyBytes : Nat := 16 * 1024 * 1024

/-- The fields of `Diagnostic` that frame errors set. -/
structure Diagnostic where
  kind : String
  code : Option String
  message : String
  deriving DecidableEq, Repr

/-- `frame_error`. -/
def frameError (protocol code message : String) : Diagnostic :=
  ⟨protocol, some (protocol ++ ".frame." ++ code), message⟩

/-- The parts of the host the reader depends on. -/
structure Host where
  /-- Whether `try_reserve_exact` grants this many bytes. -/
  reserves : Nat → Bool
  /-- The text of the error for bytes that are no UTF-8. -/
  utf8Error : Bytes → String
  /-- The text of the error for an input that ends too early. -/
  unexpectedEof : String

variable (host : Host) (protocol : String)

/-! ### Input -/

/-- What `fill_buf` returns before the end of the stream. -/
abbrev Chunk := {bytes : Bytes // bytes ≠ []}

/-- A `BufRead`, as the chunks it is going to show. -/
abbrev Input := List Chunk

/-- The bytes still to read. -/
def contents (input : Input) : Bytes := input.flatMap Subtype.val

@[simp] theorem contents_nil : contents [] = [] := rfl

@[simp] theorem contents_cons (chunk : Chunk) (rest : Input) :
    contents (chunk :: rest) = chunk.val ++ contents rest := rfl

/-- `BufRead::consume`, for at most as many bytes as the first chunk has. -/
def consume (amount : Nat) : Input → Input
  | [] => []
  | chunk :: rest =>
    if h : chunk.val.drop amount = [] then rest else ⟨chunk.val.drop amount, h⟩ :: rest

theorem contents_consume {amount : Nat} {chunk : Chunk} (rest : Input) (h : amount ≤ chunk.val.length) :
    contents (consume amount (chunk :: rest)) = (contents (chunk :: rest)).drop amount := by
  rw [consume, contents_cons, List.drop_append_of_le_length h]
  split
  next hnil => rw [hnil, List.nil_append]
  next => rfl

/-- `Read::read_exact`: the bytes, or nothing when the input ends before. -/
def readExact : Nat → Input → Option Bytes × Input
  | 0, input => (some [], input)
  | _ + 1, [] => (none, [])
  | amount + 1, chunk :: rest =>
    if amount + 1 < chunk.val.length then
      (some (chunk.val.take (amount + 1)), consume (amount + 1) (chunk :: rest))
    else
      let result := readExact (amount + 1 - chunk.val.length) rest
      (result.1.map (chunk.val ++ ·), result.2)

/-! ### Header lines -/

/-- The error for a header line that is too long. -/
def headerLineOversized : Diagnostic :=
  frameError protocol "header_line_oversized"
    (protocol ++ " header line exceeds the " ++ toString maxHeaderLineBytes ++ "-byte limit")

/-- The loop of `read_header_line`, with the part of the line read so far. -/
def readLineFrom (protocol : String) : Bytes → Input → Except Diagnostic (Option Bytes) × Input
  | line, [] =>
    if line.isEmpty then (.ok none, [])
    else
      (.error (frameError protocol "truncated_header" ("truncated " ++ protocol ++ " header line")),
        [])
  | line, buffer :: rest =>
    let newline := buffer.val.findIdx? (· == 10)
    let take := newline.elim buffer.val.length (· + 1)
    if line.length + take > maxHeaderLineBytes then
      (.error (headerLineOversized protocol), buffer :: rest)
    else
      match newline with
      | some _ => (.ok (some (line ++ buffer.val.take take)), consume take (buffer :: rest))
      -- the whole buffer belongs to the line
      | none => readLineFrom protocol (line ++ buffer.val) rest

/-- `read_header_line`. -/
def readHeaderLine : Fallible Diagnostic Input (Option Bytes) :=
  ExceptT.mk fun input => readLineFrom protocol [] input

@[simp] theorem exec_readHeaderLine (input : Input) :
    exec (readHeaderLine protocol) input = readLineFrom protocol [] input := rfl

/-- `strip_suffix` for one byte, with the bytes themselves when it is not there. -/
def stripLast (byte : UInt8) (bytes : Bytes) : Bytes :=
  if bytes.getLast? = some byte then bytes.dropLast else bytes

/-- `trim_header_line`. -/
def trimHeaderLine (line : Bytes) : Except Diagnostic Text :=
  let line := stripLast 13 (stripLast 10 line)
  match decodeUtf8 line with
  | some text => .ok text
  | none =>
    .error (frameError protocol "invalid_header"
      (protocol ++ " header is not UTF-8: " ++ host.utf8Error line))

/-! ### Headers -/

/-- `str::eq_ignore_ascii_case`. -/
def eqIgnoreAsciiCase (a b : Text) : Bool := a.map Char.toLower == b.map Char.toLower

/-- The value of a `Content-Length` header, when none came before. -/
def readContentLength (contentLength : Option Nat) (value : Text) :
    Except Diagnostic (Option Nat) :=
  if contentLength.isSome then
    .error (frameError protocol "duplicate_content_length"
      ("duplicate Content-Length header in " ++ protocol ++ " message"))
  else
    match parseU64 (trim value) with
    | none =>
      .error (frameError protocol "invalid_content_length"
        ("invalid Content-Length header in " ++ protocol ++ " message"))
    | some length =>
      if length > maxBodyBytes then
        .error (frameError protocol "body_oversized"
          (protocol ++ " body exceeds the " ++ toString maxBodyBytes ++ "-byte limit"))
      else .ok (some length)

/-- One header of the loop of `read_message`, after its line was counted. -/
def readHeader (contentLength : Option Nat) (trimmed : Text) : Except Diagnostic (Option Nat) :=
  match splitOnce ':' trimmed with
  | none => .error (frameError protocol "malformed_header" ("malformed " ++ protocol ++ " header"))
  | some (name, value) =>
    if (trim name).isEmpty then
      .error (frameError protocol "malformed_header" ("malformed " ++ protocol ++ " header name"))
    else if eqIgnoreAsciiCase (trim name) "Content-Length".toList then
      readContentLength protocol contentLength value
    else .ok contentLength

/-- The error for headers that are too long together. -/
def headersOversized : Diagnostic :=
  frameError protocol "headers_oversized"
    (protocol ++ " headers exceed the " ++ toString maxHeaderBytes ++ "-byte limit")

/-- A `Result` inside a method. -/
def fromResult {α : Type} : Except Diagnostic α → Fallible Diagnostic Input α
  | .ok a => pure a
  | .error e => throw e

/-- The header loop of `read_message`.  The first argument is how many more headers are allowed, the
limit less `header_count`. -/
def readHeaders (host : Host) (protocol : String) :
    Nat → Nat → Option Nat → Bytes → Fallible Diagnostic Input (Option Nat)
  | allowed, headerBytes, contentLength, rawLine =>
    if headerBytes > maxHeaderBytes then throw (headersOversized protocol)
    else do
      let trimmed ← fromResult (trimHeaderLine host protocol rawLine)
      if trimmed.isEmpty then return contentLength
      else
        match allowed with
        | 0 =>
          throw (frameError protocol "too_many_headers"
            (protocol ++ " message exceeds the " ++ toString maxHeaderCount ++ "-header limit"))
        | allowed + 1 => do
          let contentLength ← fromResult (readHeader protocol contentLength trimmed)
          match ← readHeaderLine protocol with
          | none =>
            throw (frameError protocol "truncated_headers"
              ("truncated " ++ protocol ++ " header block"))
          | some nextLine =>
            if headerBytes + nextLine.length > maxHeaderBytes then
              throw (headersOversized protocol)
            else
              readHeaders host protocol allowed (headerBytes + nextLine.length) contentLength nextLine

/-! ### Messages -/

/-- `input.read_exact(&mut body)`. -/
def readBody (length : Nat) : Fallible Diagnostic Input (Option Bytes) :=
  ExceptT.mk fun input => (.ok (readExact length input).1, (readExact length input).2)

@[simp] theorem exec_readBody (length : Nat) (input : Input) :
    exec (readBody length) input = (.ok (readExact length input).1, (readExact length input).2) := rfl

/-- The part of `read_message` after the header block. -/
def readBodyText (contentLength : Option Nat) : Fallible Diagnostic Input (Option Text) :=
  match contentLength with
  | none =>
    throw (frameError protocol "missing_content_length"
      ("missing Content-Length header in " ++ protocol ++ " message"))
  | some length =>
    if !host.reserves length then
      throw (frameError protocol "body_allocation_failed"
        ("unable to reserve " ++ toString length ++ " bytes for " ++ protocol ++ " body"))
    else do
      match ← readBody length with
      | none =>
        throw (frameError protocol "truncated_body"
          ("failed to read " ++ protocol ++ " body: " ++ host.unexpectedEof))
      | some body =>
        match decodeUtf8 body with
        | some text => return some text
        | none =>
          throw (frameError protocol "invalid_utf8"
            (protocol ++ " body is not UTF-8: " ++ host.utf8Error body))

/-- `read_message`. -/
def readMessage : Fallible Diagnostic Input (Option Text) := do
  match ← readHeaderLine protocol with
  | none => return none
  | some firstLine =>
    let contentLength ← readHeaders host protocol maxHeaderCount firstLine.length none firstLine
    readBodyText host protocol contentLength

/-- The bytes `write_message` puts out for a serialized payload. -/
def writeMessage (body : Text) : Bytes :=
  encodeUtf8 ("Content-Length: ".toList ++ Nat.toDigits 10 (encodeUtf8 body).length ++
    "\r\n\r\n".toList ++ body)

/-- The results of successive calls. -/
def session (host : Host) (protocol : String) : Nat → Input → List (Except Diagnostic (Option Text))
  | 0, _ => []
  | calls + 1, input =>
    let result := exec (readMessage host protocol) input
    result.1 :: session host protocol calls result.2

end Axiomc.Framing

import Equilibrium.Strings.FloatFormat

/-! The formatter of `base/strings/format.h` and `base/strings/format.cc`. A `char` is a
character, and text without a length of its own ends at its first NUL. A step of the
sink may refuse, and so does a step of the formatter whose `int` leaves its range. A
conversion of a double is refused where a precision is so close to that range that
`FormatFloatTo` could leave it. -/

namespace Equilibrium.Format

open Library FloatFormat

inductive Arg where
  | none
  | bool (b : Bool)
  | char (c : Char)
  | i64 (i : Int64)
  | u64 (u : UInt64)
  | f64 (d : Binary64)
  | cStr (text : Option (List Char))
  | strSpan (text : List Char)
  | u16Str (text : Option (List UInt16))
  | u32Str (text : Option (List UInt32))
  | ptr (address : UInt64)

structure Spec where
  fill : Char
  align : Char
  sign : Char
  type : Char
  alt : Bool
  zeroPad : Bool
  width : ℤ
  precision : ℤ
  deriving DecidableEq

/-- `Spec{}` -/
def Spec.new : Spec := ⟨' ', '\x00', '-', '\x00', false, false, 0, -1⟩

structure Sink (σ : Type) where
  writeFn : σ → List Char → Option σ

abbrev Steps (σ α : Type) := StateT σ Option α

variable {σ : Type}

def undefined : Steps σ Unit := fun _ => none

namespace Sink

def write (sink : Sink σ) (data : List Char) : Steps σ Unit := fun s =>
  if data.length ≠ 0 then (sink.writeFn s data).map fun s => ((), s) else some ((), s)

def writeChar (sink : Sink σ) (c : Char) : Steps σ Unit := fun s =>
  (sink.writeFn s [c]).map fun s => ((), s)

/-- A loop that writes one character after another. -/
def writeChars (sink : Sink σ) : List Char → Steps σ Unit
  | [] => pure ()
  | c :: rest => do
    sink.writeChar c
    writeChars sink rest

end Sink

/-- An `int` that an operation gives. -/
def checkedInt (z : ℤ) : Option ℤ := if -2 ^ 31 ≤ z ∧ z < 2 ^ 31 then some z else none

/-- `static_cast<int>` -/
def castInt (n : ℕ) : ℤ := (n : ℤ).bmod (2 ^ 32)

def cString (text : List Char) : List Char := text.takeWhile (· ≠ '\x00')

/-! The specification of a field. -/

def isAlign (c : Char) : Bool := c = '<' ∨ c = '>' ∨ c = '^'

def parseAlign (p : List Char) (s : Spec) : Spec × List Char :=
  match p with
  | [] => (s, [])
  | [c] => if isAlign c then ({ s with align := c }, []) else (s, [c])
  | f :: c :: rest =>
    if isAlign c ∧ f ≠ '\x00' ∧ f ≠ '{' ∧ f ≠ '}' then ({ s with fill := f, align := c }, rest)
    else if isAlign f then ({ s with align := f }, c :: rest)
    else (s, f :: c :: rest)

def parseSign (p : List Char) (s : Spec) : Spec × List Char :=
  match p with
  | c :: rest => if c = '+' ∨ c = '-' ∨ c = ' ' then ({ s with sign := c }, rest) else (s, p)
  | [] => (s, [])

def parseAlt (p : List Char) (s : Spec) : Spec × List Char :=
  match p with
  | c :: rest => if c = '#' then ({ s with alt := true }, rest) else (s, p)
  | [] => (s, [])

def parseZeroPad (p : List Char) (s : Spec) : Spec × List Char :=
  match p with
  | c :: rest => if c = '0' then ({ s with zeroPad := true }, rest) else (s, p)
  | [] => (s, [])

def isDecDigit (c : Char) : Bool := '0' ≤ c ∧ c ≤ '9'

def decDigit (c : Char) : ℕ := c.toNat - '0'.toNat

/-- A loop `value = value * 10 + digit` on an `int`. -/
def parseInt : ℤ → List Char → Option (ℤ × List Char)
  | value, [] => some (value, [])
  | value, c :: rest =>
    if isDecDigit c then
      match checkedInt (value * 10 + decDigit c) with
      | some value => parseInt value rest
      | none => none
    else some (value, c :: rest)

def parsePrecision (p : List Char) : Option (ℤ × List Char) :=
  match p with
  | c :: rest => if c = '.' then parseInt 0 rest else some (-1, p)
  | [] => some (-1, [])

def parseType (p : List Char) (s : Spec) : Spec :=
  match p with
  | c :: _ => { s with type := c }
  | [] => s

def parseFlags (text : List Char) : Spec × List Char :=
  let (s, p) := parseAlign text .new
  let (s, p) := parseSign p s
  let (s, p) := parseAlt p s
  parseZeroPad p s

/-- `ParseSpec` on the text up to the closing brace -/
def parseSpec (text : List Char) : Option Spec := do
  let (s, p) := parseFlags text
  let (width, p) ← parseInt s.width p
  let (precision, p) ← parsePrecision p
  return parseType p { s with width := width, precision := precision }

/-! The values. -/

def emitFillLoop (sink : Sink σ) (c : Char) : ℕ → ℕ → Steps σ Unit
  | 0, _ => pure ()
  | rounds + 1, n =>
    if n > 0 then do
      let chunk := if n > 32 then 32 else n
      sink.write (List.replicate chunk c)
      emitFillLoop sink c rounds (n - chunk)
    else pure ()

def emitFill (sink : Sink σ) (c : Char) (n : ℕ) : Steps σ Unit := emitFillLoop sink c n n

def emitAligned (sink : Sink σ) (align fill : Char) (bodyLen width : ℤ) (bodyWriter : Steps σ Unit) :
    Steps σ Unit :=
  match if width > bodyLen then checkedInt (width - bodyLen) else some 0 with
  | none => undefined
  | some pad =>
    if pad = 0 then bodyWriter
    else if align = '<' then do
      bodyWriter
      emitFill sink fill pad.toNat
    else if align = '^' then do
      let left := pad.toNat / 2
      emitFill sink fill left
      bodyWriter
      emitFill sink fill (pad.toNat - left)
    else do
      emitFill sink fill pad.toNat
      bodyWriter

/-- A byte as a `char`. -/
def toChar (n : ℕ) : Char := Char.ofNat (n % 256)

def encodeUtf8 (cp : ℕ) : List Char :=
  if cp ≤ 0x7F then [toChar cp]
  else if cp ≤ 0x7FF then [toChar (0xC0 ||| cp >>> 6), toChar (0x80 ||| cp &&& 0x3F)]
  else if cp ≤ 0xFFFF then
    if cp ≥ 0xD800 ∧ cp ≤ 0xDFFF then []
    else [toChar (0xE0 ||| cp >>> 12), toChar (0x80 ||| cp >>> 6 &&& 0x3F),
      toChar (0x80 ||| cp &&& 0x3F)]
  else if cp ≤ 0x10FFFF then
    [toChar (0xF0 ||| cp >>> 18), toChar (0x80 ||| cp >>> 12 &&& 0x3F),
      toChar (0x80 ||| cp >>> 6 &&& 0x3F), toChar (0x80 ||| cp &&& 0x3F)]
  else []

/-- All the bytes that `TranscodeUtf16` counts, for units before the terminator. -/
def transcodeUtf16 : List UInt16 → List Char
  | [] => []
  | [high] => encodeUtf8 high.toNat
  | high :: low :: rest =>
    if high ≥ 0xD800 ∧ high ≤ 0xDBFF ∧ low ≥ 0xDC00 ∧ low ≤ 0xDFFF then
      encodeUtf8 (0x10000 + ((high.toNat - 0xD800) <<< 10) + (low.toNat - 0xDC00)) ++
        transcodeUtf16 rest
    else encodeUtf8 high.toNat ++ transcodeUtf16 (low :: rest)

def transcodeUtf32 (src : List UInt32) : List Char := src.flatMap fun cp => encodeUtf8 cp.toNat

def formatString (sink : Sink σ) (data : List Char) (spec : Spec) : Steps σ Unit :=
  let length := if spec.precision ≥ 0 ∧ (data.length : ℤ) > spec.precision then
    spec.precision.toNat else data.length
  let align := if spec.align ≠ '\x00' then spec.align else '<'
  emitAligned sink align spec.fill (castInt length) spec.width (sink.write (data.take length))

/-- `kMaxCapacity` of a string of `char`s -/
def kMaxCapacity : ℕ := 2 ^ 63 - 2

/-- `FormatWideString` on what the transcoder writes -/
def formatWideString (sink : Sink σ) (spec : Spec) (transcoded : List Char) : Steps σ Unit :=
  let needed := transcoded.length
  if needed ≤ 256 then formatString sink (transcoded.take 256) spec
  else if needed ≤ kMaxCapacity then formatString sink transcoded spec
  else undefined

def integerBase (spec : Spec) : ℕ × Bool × List Char :=
  if spec.type = 'x' then (16, false, if spec.alt then ['0', 'x'] else [])
  else if spec.type = 'X' then (16, true, if spec.alt then ['0', 'X'] else [])
  else if spec.type = 'o' then (8, false, if spec.alt then ['0'] else [])
  else if spec.type = 'b' then (2, false, if spec.alt then ['0', 'b'] else [])
  else if spec.type = 'B' then (2, false, if spec.alt then ['0', 'B'] else [])
  else (10, false, [])

def digitOf (upper : Bool) (d : ℕ) : Char :=
  if d < 10 then toChar ('0'.toNat + d)
  else toChar ((if upper then 'A' else 'a').toNat + d - 10)

/-- The digits that fill `digits[64]`, the least significant first. -/
def digitLoop (base : ℕ) (upper : Bool) : ℕ → ℕ → List Char
  | 0, _ => []
  | room + 1, abs =>
    if abs = 0 then [] else digitOf upper (abs % base) :: digitLoop base upper room (abs / base)

def formatInteger (sink : Sink σ) (abs : UInt64) (negative : Bool) (spec : Spec) : Steps σ Unit :=
  if spec.type = 'c' then sink.writeChar (toChar abs.toNat)
  else
    let (base, upper, pre) := integerBase spec
    let digits := if abs = 0 then ['0'] else digitLoop base upper 64 abs.toNat
    let signChar := if negative then ['-'] else if spec.sign = '+' then ['+']
      else if spec.sign = ' ' then [' '] else []
    let bodyLen : ℤ := signChar.length + pre.length + digits.length
    if spec.zeroPad ∧ spec.align = '\x00' ∧ spec.width > bodyLen then do
      sink.writeChars signChar
      sink.write pre
      emitFill sink '0' (spec.width - bodyLen).toNat
      sink.writeChars digits.reverse
    else
      let align := if spec.align ≠ '\x00' then spec.align else '>'
      emitAligned sink align spec.fill bodyLen spec.width do
        sink.writeChars signChar
        sink.write pre
        sink.writeChars digits.reverse

def kFloatFormatBufferSize : ℕ := 512

/-- The text of a double: the inline buffer, or a string of the size it needs. -/
def floatText (v : Binary64) (spec : Spec) : Option (List Char) :=
  let type := if spec.type = '\x00' then if spec.precision ≥ 0 then 'f' else 'g' else spec.type
  if spec.precision + 400 < 2 ^ 31 then
    let (text, needed) :=
      formatFloatTo kFloatFormatBufferSize v type spec.precision spec.sign spec.alt
    if needed > kFloatFormatBufferSize then
      some (formatFloatTo needed v type spec.precision spec.sign spec.alt).1
    else some text
  else none

def formatFloat (sink : Sink σ) (v : Binary64) (spec : Spec) : Steps σ Unit :=
  match floatText v spec with
  | none => undefined
  | some text =>
    let n := castInt text.length
    if spec.zeroPad ∧ spec.align = '\x00' ∧ spec.width > n then
      match checkedInt (spec.width - n) with
      | none => undefined
      | some pad =>
        let sign := if n > 0 then text.take 1 |>.filter fun c => c = '-' ∨ c = '+' ∨ c = ' ' else []
        do
          sink.writeChars sign
          emitFill sink '0' pad.toNat
          sink.write (text.drop sign.length)
    else
      let align := if spec.align ≠ '\x00' then spec.align else '>'
      emitAligned sink align spec.fill n spec.width (sink.write text)

def isIntegerType (type : Char) : Bool :=
  type = 'd' ∨ type = 'x' ∨ type = 'X' ∨ type = 'o' ∨ type = 'b' ∨ type = 'B'

def formatBool (sink : Sink σ) (v : Bool) (spec : Spec) : Steps σ Unit :=
  if isIntegerType spec.type then formatInteger sink (if v then 1 else 0) false spec
  else formatString sink (if v then ['t', 'r', 'u', 'e'] else ['f', 'a', 'l', 's', 'e']) spec

def formatPointer (sink : Sink σ) (p : UInt64) (spec : Spec) : Steps σ Unit :=
  formatInteger sink p false { spec with alt := true, type := 'x', sign := '-' }

def nullText : List Char := ['(', 'n', 'u', 'l', 'l', ')']

def formatArgValue (sink : Sink σ) (arg : Arg) (spec : Spec) : Steps σ Unit :=
  match arg with
  | .bool b => formatBool sink b spec
  | .char c =>
    if isIntegerType spec.type then formatInteger sink (UInt64.ofNat (c.toNat % 256)) false spec
    else formatString sink [c] spec
  | .i64 i =>
    let neg := decide (i < 0)
    formatInteger sink (if neg then 0 - i.toUInt64 else i.toUInt64) neg spec
  | .u64 u => formatInteger sink u false spec
  | .f64 d => formatFloat sink d spec
  | .cStr text => formatString sink (cString (text.getD nullText)) spec
  | .strSpan text => formatString sink text spec
  | .u16Str text =>
    match text with
    | none => formatString sink nullText spec
    | some src => formatWideString sink spec (transcodeUtf16 (src.takeWhile (· ≠ 0)))
  | .u32Str text =>
    match text with
    | none => formatString sink nullText spec
    | some src => formatWideString sink spec (transcodeUtf32 (src.takeWhile (· ≠ 0)))
  | .ptr address => formatPointer sink address spec
  | .none => sink.write ['(', '?', ')']

/-! The format text. -/

/-- A loop `idx = idx * 10 + digit` on a `mem_size`. -/
def parseIndex : ℕ → List Char → ℕ × List Char
  | idx, [] => (idx, [])
  | idx, c :: rest =>
    if isDecDigit c then parseIndex ((idx * 10 + decDigit c) % 2 ^ 64) rest else (idx, c :: rest)

structure Field where
  index : Option ℕ
  spec : Spec
  deriving DecidableEq

/-- The index of a field, if it starts with one. -/
def parseFieldIndex (p : List Char) : Option ℕ × List Char :=
  match p with
  | c :: _ => if isDecDigit c then ((parseIndex 0 p).1, (parseIndex 0 p).2) else (none, p)
  | [] => (none, [])

def splitSpec (p : List Char) : List Char × List Char :=
  match p with
  | c :: rest =>
    if c = ':' then (rest.takeWhile (· ≠ '}'), rest.dropWhile (· ≠ '}')) else ([], p)
  | [] => ([], [])

def skipBrace (p : List Char) : List Char :=
  match p with
  | c :: rest => if c = '}' then rest else p
  | [] => []

/-- The field behind an opening brace, and what is behind the field. -/
def parseField (p : List Char) : Option Field × List Char :=
  let (index, p) := parseFieldIndex p
  let (text, p) := splitSpec p
  ((parseSpec text).map fun spec => ⟨index, spec⟩, skipBrace p)

def notBrace (c : Char) : Bool := c ≠ '{' ∧ c ≠ '}'

def formatLoop (sink : Sink σ) (args : List Arg) : ℕ → ℕ → List Char → Steps σ Unit
  | _, _, [] => pure ()
  | 0, _, _ :: _ => undefined
  | rounds + 1, autoIndex, c :: p =>
    if c = '{' then
      if p.head? = some '{' then do
        sink.writeChar '{'
        formatLoop sink args rounds autoIndex p.tail
      else
        match (parseField p).1 with
        | none => undefined
        | some field =>
          match args[field.index.getD autoIndex]? with
          | none => do
            sink.write ['{', '?', '}']
            formatLoop sink args rounds autoIndex (parseField p).2
          | some arg => do
            formatArgValue sink arg field.spec
            formatLoop sink args rounds (if field.index.isSome then autoIndex else autoIndex + 1)
              (parseField p).2
    else if c = '}' then do
      sink.writeChar '}'
      formatLoop sink args rounds autoIndex (if p.head? = some '}' then p.tail else p)
    else do
      sink.write ((c :: p).takeWhile notBrace)
      formatLoop sink args rounds autoIndex ((c :: p).dropWhile notBrace)

/-- A round of the loop passes a character at least. -/
def formatCore (sink : Sink σ) (fmt : Option (List Char)) (args : List Arg) : Steps σ Unit :=
  match fmt with
  | none => pure ()
  | some fmt => formatLoop sink args (cString fmt).length 0 (cString fmt)

/-! The sinks. -/

structure FixedBufferState where
  dst : ℕ → Char
  capacity : ℕ
  written : ℕ

/-- The loop that copies into the buffer. -/
def copyTo (dst : ℕ → Char) (pos : ℕ) : List Char → ℕ → Char
  | [] => dst
  | c :: rest => copyTo (fun j => if j = pos then c else dst j) (pos + 1) rest

def fixedBufferWrite (s : FixedBufferState) (data : List Char) : FixedBufferState :=
  let written := (s.written + data.length) % 2 ^ 64
  if s.written ≥ s.capacity then { s with written := written }
  else
    let room := s.capacity - s.written
    let copy := if data.length < room then data.length else room
    { s with dst := copyTo s.dst s.written (data.take copy), written := written }

def fixedBufferSink : Sink FixedBufferState := ⟨fun s data => some (fixedBufferWrite s data)⟩

/-- `StringWrite`: a string that would pass its maximal size stops the program. -/
def stringSink : Sink (List Char) :=
  ⟨fun s data => if s.length + data.length ≤ kMaxCapacity then some (s ++ data) else none⟩

/-- `FormatTo` into the memory that starts with the buffer: what it returns, and the
memory behind it. -/
def formatTo (buffer : ℕ → Char) (bufferSize : ℕ) (fmt : Option (List Char)) (args : List Arg) :
    Option (ℕ × (ℕ → Char)) :=
  if bufferSize = 0 then some (0, buffer)
  else do
    let (_, s) ← (formatCore fixedBufferSink fmt args).run ⟨buffer, bufferSize - 1, 0⟩
    let term := if s.written < s.capacity then s.written else s.capacity
    return (s.written, fun j => if j = term then '\x00' else s.dst j)

def format (fmt : Option (List Char)) (args : List Arg) : Option (List Char) := do
  let (_, s) ← (formatCore stringSink fmt args).run []
  return s

end Equilibrium.Format

import TypegoSdk.Crow.Text
import TypegoSdk.Crow.Number

/-!
# The JSON parser (include/crow/json.h)

`load` copies the text into a buffer, puts a zero behind it and parses it in
place. The values it returns point into the buffer, and the parser writes into
it on the way: the closing quote of a string becomes a zero, the opening one
says whether there are escapes, and a key is unescaped at once. A pointer is an
offset, and the buffer is part of the parser's state.
-/

namespace TypegoSdk.Crow
open TypegoSdk.Lib

/- `Function` is for values that are written, never for one that is read. -/
inductive JType where
  | null
  | false
  | true
  | number
  | string
  | list
  | object
  deriving DecidableEq

/-- `detail::r_string`. -/
structure RString where
  s : ℕ
  e : ℕ
  deriving DecidableEq

/-- `rvalue`: the pointers of a string or a number, the elements of a list or an
object, the key under which it stands in an object, and the bit of `option_`
that says that its elements are sorted. The error bit is the error of a result. -/
structure RValue where
  t : JType
  start : ℕ
  stop : ℕ
  key : RString
  l : List RValue
  cached : Bool

namespace RValue

/- The constructors of the class. The pointers of a value without text are not
set by them. -/
def ofType (t : JType) : RValue := ⟨t, 0, 0, ⟨0, 0⟩, [], .false⟩

def ofText (t : JType) (start stop : ℕ) : RValue := ⟨t, start, stop, ⟨0, 0⟩, [], .false⟩

def ofList (t : JType) (l : List RValue) : RValue := ⟨t, 0, 0, ⟨0, 0⟩, l, .false⟩

end RValue

/-- The error bit, or a bound on the rounds of a loop that was too small. -/
inductive Fault where
  | error
  | fuel
  deriving DecidableEq

def maxDepth : ℕ := 10000

def isWs (c : UInt8) : Bool := c == 32 || c == 9 || c == 13 || c == 10

structure Parser where
  buf : Bytes
  data : ℕ

namespace Parser

def cur (p : Parser) : UInt8 := peek p.buf p.data

def ahead (p : Parser) : Bytes := p.buf.drop p.data

def advance (p : Parser) (n : ℕ) : Parser := { p with data := p.data + n }

def wsSkip (p : Parser) : Parser := p.advance (p.ahead.takeWhile isWs).length

def decodeString (p : Parser) : Except Fault (RValue × Parser) :=
  if p.cur ≠ quote then .error .error
  else
    let start := p.data + 1
    match scanString (p.buf.drop start) with
    | none => .error .error
    | some (n, hasEscaping) =>
      .ok (.ofText .string start (start + n),
        { buf := (p.buf.set (start + n) 0).set (start - 1) (if hasEscaping then 1 else 0)
          data := start + n + 1 })

def decodeNumber (p : Parser) : Except Fault (RValue × Parser) :=
  match numberLoop false .minus p.ahead with
  | none => .error .error
  | some n => .ok (.ofText .number p.data (p.data + n), p.advance n)

/- The comparison of `data[0]`, `data[1]`, … with the letters of a word. -/
def decodeWord (p : Parser) (word : Bytes) (t : JType) : Except Fault (RValue × Parser) :=
  if word.isPrefixOf p.ahead then .ok (.ofType t, p.advance word.length) else .error .error

section Containers
variable (decode : Parser → Except Fault (RValue × Parser))

/-- The loop of `decode_list`; `decode` is `decode_value` one level down. -/
def listLoop : ℕ → List RValue → Parser → Except Fault (List RValue × Parser)
  | 0, _, _ => .error .fuel
  | fuel + 1, l, p =>
    match decode p with
    | .error e => .error e
    | .ok (v, p) =>
      let p := p.wsSkip
      let l := l ++ [v]
      if p.cur = ']'.toUInt8 then .ok (l, p.advance 1)
      else if p.cur ≠ ','.toUInt8 then .error .error
      else listLoop fuel l (p.advance 1).wsSkip

def decodeList (depth : ℕ) (p : Parser) : Except Fault (RValue × Parser) :=
  if p.cur ≠ '['.toUInt8 ∨ depth > maxDepth then .error .error
  else
    let p := (p.advance 1).wsSkip
    if p.cur = ']'.toUInt8 then .ok (.ofList .list [], p.advance 1)
    else
      match listLoop decode p.buf.length [] p with
      | .error e => .error e
      | .ok (l, p) => .ok (.ofList .list l, p)

/-- The loop of `decode_object`. The key is unescaped behind the colon, before the
value is read. -/
def objectLoop : ℕ → List RValue → Parser → Except Fault (List RValue × Parser)
  | 0, _, _ => .error .fuel
  | fuel + 1, l, p =>
    match p.decodeString with
    | .error e => .error e
    | .ok (t, p) =>
      let p := p.wsSkip
      if p.cur ≠ ':'.toUInt8 then .error .error
      else
        let p := p.advance 1
        match unescape p.buf t.start t.stop with
        | none => .error .fuel
        | some (buf, stop) =>
          match decode { p with buf := buf }.wsSkip with
          | .error e => .error e
          | .ok (v, p) =>
            let p := p.wsSkip
            let l := l ++ [{ v with key := ⟨t.start, stop⟩ }]
            if p.cur = 125 then .ok (l, p.advance 1)
            else if p.cur ≠ ','.toUInt8 then .error .error
            else objectLoop fuel l (p.advance 1).wsSkip

def decodeObject (depth : ℕ) (p : Parser) : Except Fault (RValue × Parser) :=
  if p.cur ≠ 123 ∨ depth > maxDepth then .error .error
  else
    let p := (p.advance 1).wsSkip
    if p.cur = 125 then .ok (.ofList .object [], p.advance 1)
    else
      match objectLoop decode p.buf.length [] p with
      | .error e => .error e
      | .ok (l, p) => .ok (.ofList .object l, p)

end Containers

/-- The switch of `decode_value`. The recursion is through a list or an object two
levels down, and the source bounds their depth. -/
def decodeValue : ℕ → ℕ → Parser → Except Fault (RValue × Parser)
  | 0, _, _ => .error .fuel
  | fuel + 1, depth, p =>
    if p.cur = '['.toUInt8 then decodeList (decodeValue fuel (depth + 2)) (depth + 1) p
    else if p.cur = 123 then decodeObject (decodeValue fuel (depth + 2)) (depth + 1) p
    else if p.cur = quote then p.decodeString
    else if p.cur = 't'.toUInt8 then p.decodeWord (bytes "true") .true
    else if p.cur = 'f'.toUInt8 then p.decodeWord (bytes "false") .false
    else if p.cur = 'n'.toUInt8 then p.decodeWord (bytes "null") .null
    else p.decodeNumber

/- A byte behind the value that is not the terminating zero is an error. -/
def parse (p : Parser) : Except Fault (RValue × Parser) :=
  match decodeValue maxDepth 0 p.wsSkip with
  | .error e => .error e
  | .ok (v, p) =>
    let p := p.wsSkip
    if p.cur ≠ 0 then .error .error else .ok (v, p)

end Parser

/-- A value and the buffer it points into. -/
structure Document where
  root : RValue
  buf : Bytes

def load (str : Bytes) : Except Fault Document :=
  match Parser.parse ⟨str ++ [0], 0⟩ with
  | .error e => .error e
  | .ok (v, p) => .ok ⟨v, p.buf⟩

end TypegoSdk.Crow

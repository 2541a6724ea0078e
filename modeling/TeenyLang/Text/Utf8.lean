import TeenyLang.Text.Quoted

set_option autoImplicit false

/-!
# UTF-8

Octets are read one at a time. Between characters the next octet says how many more are
owed and in which range the first of them lies; the ranges leave out the surrogates, the
code points above U+10FFFF and every spelling longer than needed. Reading is strict: the
first octet that fits no character stops it.

A character is a Unicode scalar value, so what is read never holds a surrogate. A text that
comes from elsewhere may hold lone surrogates, which have no UTF-8 form. In such a text other
characters, which it has no use for, stand for them, and a list `lone` says which ones.
Writing is strict too: a text with a lone surrogate has no octets.
-/
namespace TeenyLang.Text

inductive DecodeFault where
  | invalidStart
  | unexpectedEnd
  | invalidContinuation
deriving DecidableEq, Repr

/-- The first unreadable sequence: the octets that began a character, where they stand and
what is wrong with them. -/
structure DecodeError where
  octets : List UInt8
  position : Nat
  fault : DecodeFault
deriving DecidableEq, Repr

def DecodeFault.text : DecodeFault → String
  | .invalidStart => "invalid start byte"
  | .unexpectedEnd => "unexpected end of data"
  | .invalidContinuation => "invalid continuation byte"

def DecodeError.message (e : DecodeError) : String :=
  let place :=
    match e.octets with
    | [octet] =>
      let digits := String.ofList (hexDigits 2 octet.toNat)
      s!"byte 0x{digits} in position {e.position}"
    | octets => s!"bytes in position {e.position}-{e.position + octets.length - 1}"
  s!"'utf-8' codec can't decode {place}: {e.fault.text}"

/-- A character under way: the octets read, the code point so far, how many octets are owed
and the range of the next one. -/
structure PartialChar where
  octets : List UInt8
  code : Nat
  owed : Nat
  least : UInt8
  greatest : UInt8
deriving DecidableEq, Repr

/-- The character that the octet `lead` of at least 0x80 begins. -/
def leadOctet? (lead : UInt8) : Option PartialChar :=
  if 0xC2 ≤ lead && lead ≤ 0xDF then some ⟨[lead], lead.toNat - 0xC0, 1, 0x80, 0xBF⟩
  else if lead = 0xE0 then some ⟨[lead], 0, 2, 0xA0, 0xBF⟩
  else if lead = 0xED then some ⟨[lead], 0xD, 2, 0x80, 0x9F⟩
  else if 0xE1 ≤ lead && lead ≤ 0xEF then some ⟨[lead], lead.toNat - 0xE0, 2, 0x80, 0xBF⟩
  else if lead = 0xF0 then some ⟨[lead], 0, 3, 0x90, 0xBF⟩
  else if 0xF1 ≤ lead && lead ≤ 0xF3 then some ⟨[lead], lead.toNat - 0xF0, 3, 0x80, 0xBF⟩
  else if lead = 0xF4 then some ⟨[lead], 4, 3, 0x80, 0x8F⟩
  else none

/-- Reads octets from `position` on, with a character under way or none. -/
def decodeFrom (position : Nat) (pending : Option PartialChar) :
    List UInt8 → Except DecodeError (List Char)
  | [] =>
    match pending with
    | none => .ok []
    | some char => .error ⟨char.octets, position - char.octets.length, .unexpectedEnd⟩
  | octet :: rest =>
    match pending with
    | none =>
      if octet < 0x80 then
        (Char.ofNat octet.toNat :: ·) <$> decodeFrom (position + 1) none rest
      else
        match leadOctet? octet with
        | some char => decodeFrom (position + 1) (some char) rest
        | none => .error ⟨[octet], position, .invalidStart⟩
    | some char =>
      if char.least ≤ octet && octet ≤ char.greatest then
        let code := char.code * 64 + (octet.toNat - 0x80)
        if char.owed = 1 then
          (Char.ofNat code :: ·) <$> decodeFrom (position + 1) none rest
        else
          decodeFrom (position + 1)
            (some ⟨char.octets ++ [octet], code, char.owed - 1, 0x80, 0xBF⟩) rest
      else
        .error ⟨char.octets, position - char.octets.length, .invalidContinuation⟩

def decodeUtf8 (octets : ByteArray) : Except DecodeError (List Char) :=
  decodeFrom 0 none octets.data.toList

def encodeUtf8 (text : String) : ByteArray :=
  text.toUTF8

/-- The first lone surrogates of a text and where they stand. -/
structure EncodeError where
  chars : List Char
  position : Nat
deriving DecidableEq, Repr

def EncodeError.message (e : EncodeError) : String :=
  let place :=
    match e.chars with
    | [char] =>
      let digits := String.ofList (hexDigits 4 char.toNat)
      s!"character '\\u{digits}' in position {e.position}"
    | chars => s!"characters in position {e.position}-{e.position + chars.length - 1}"
  s!"'utf-8' codec can't encode {place}: surrogates not allowed"

/-- The octets that spell a text in which the characters `lone` stand for lone surrogates. -/
def encodeStrict (lone : List Char) (text : String) : Except EncodeError ByteArray :=
  match text.toList.dropWhile fun c => !lone.contains c with
  | [] => .ok (encodeUtf8 text)
  | rest => .error ⟨rest.takeWhile lone.contains, text.length - rest.length⟩

end TeenyLang.Text

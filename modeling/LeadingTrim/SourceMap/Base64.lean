/-
# Base 64

A character of the alphabet is a digit of six bits. A row of digits is also a row of bits, the
lowest bit of each digit first.
-/

import LeadingTrim.Text.Basic

namespace LeadingTrim.SourceMap.Base64

/-- The alphabet: the digits in their order. -/
def alphabet : Text := "ABCDEFGHIJKLMNOPQRSTUVWXYZabcdefghijklmnopqrstuvwxyz0123456789+/".toList

/-- The character of a digit. -/
def charOf (digit : Nat) : Char := alphabet.getD digit 'A'

/-- The digit that a character is. -/
def digit? (c : Char) : Option Nat := alphabet.idxOf? c

/-- The bits of a digit, the lowest first. -/
def bits (digit : Nat) : List Bool := (List.range 6).map digit.testBit

/-- The first byte of the UTF-8 form of a character, as the character of that number. -/
def leadByte (c : Char) : Char :=
  let n := c.toNat
  if n < 0x80 then c
  else if n < 0x800 then Char.ofNat (0xC0 + n / 0x40)
  else if n < 0x10000 then Char.ofNat (0xE0 + n / 0x1000)
  else Char.ofNat (0xF0 + n / 0x40000)

/-- The bits of a row of digits, or else the first byte that is no digit. -/
def bitsOf : Text → Except Char (List Bool)
  | [] => .ok []
  | c :: rest =>
    match digit? c with
    | some digit => (bitsOf rest).map (bits digit ++ ·)
    | none => .error (leadByte c)

end LeadingTrim.SourceMap.Base64

/-
# Valid lists of edits

Edits can be applied together, and their origins be looked up, when each range lies in the text,
no edit begins before the one in front of it ends, and each edit names as many origins as its
replacement has bytes, all of them in the text. The first edit that breaks one of these rules is
reported, by the first rule that it breaks.
-/

import LeadingTrim.Decimal.Format
import LeadingTrim.Edit.Basic

namespace LeadingTrim.Edit

/-- What is wrong with a list of edits. -/
inductive Fault
  /-- A range that is reversed or leaves the text. -/
  | range (index start stop inputSize : Nat)
  /-- An edit that begins before the one in front of it ends. -/
  | overlap (previousStart previousStop start stop : Nat)
  /-- An edit with more or fewer origins than bytes. -/
  | originCount (index origins bytes : Nat)
  /-- An origin that is not in the text. -/
  | originOutside (index origin inputSize : Nat)
  deriving DecidableEq, Repr

/-- The message for a fault. -/
def Fault.message : Fault → Text
  | range index start stop inputSize =>
    "invalid edit: edit #".toList ++ Decimal.ofInt index ++ " has range ".toList
      ++ Decimal.ofInt start ++ "..".toList ++ Decimal.ofInt stop ++ " in an input of ".toList
      ++ Decimal.ofInt inputSize ++ " bytes".toList
  | overlap previousStart previousStop start stop =>
    "overlapping edits: [".toList ++ Decimal.ofInt previousStart ++ [',']
      ++ Decimal.ofInt previousStop ++ ") overlaps [".toList ++ Decimal.ofInt start ++ [',']
      ++ Decimal.ofInt stop ++ [')']
  | originCount index origins bytes =>
    "invalid edit: edit #".toList ++ Decimal.ofInt index ++ " maps ".toList
      ++ Decimal.ofInt origins ++ " bytes but replaces with ".toList ++ Decimal.ofInt bytes
  | originOutside index origin inputSize =>
    "invalid edit: edit #".toList ++ Decimal.ofInt index ++ " points at byte ".toList
      ++ Decimal.ofInt origin ++ " of an input of ".toList ++ Decimal.ofInt inputSize
      ++ " bytes".toList

/-- The first rule that an edit breaks, behind the edit in front of it. -/
def fault? (inputSize index : Nat) (previous : Option Edit) (e : Edit) : Option Fault :=
  if e.stop < e.start || inputSize < e.stop then
    some (.range index e.start e.stop inputSize)
  else match previous.filter fun p => e.start < p.stop with
    | some p => some (.overlap p.start p.stop e.start e.stop)
    | none =>
      if e.origins.length ≠ e.text.byteSize then
        some (.originCount index e.origins.length e.text.byteSize)
      else ((e.origins.filterMap id).find? fun origin => inputSize ≤ origin).map fun origin =>
        .originOutside index origin inputSize

/-- The fault of the first edit that has one. -/
def firstFault? (inputSize : Nat) : (index : Nat) → (previous : Option Edit) → List Edit →
    Option Fault
  | _, _, [] => none
  | index, previous, e :: rest =>
    match fault? inputSize index previous e with
    | some fault => some fault
    | none => firstFault? inputSize (index + 1) (some e) rest

/-- Checks a list of edits of a text with the given number of bytes. -/
def validate (inputSize : Nat) (edits : List Edit) : Except Fault Unit :=
  match firstFault? inputSize 0 none edits with
  | some fault => .error fault
  | none => .ok ()

end LeadingTrim.Edit

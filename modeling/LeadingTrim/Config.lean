/-
# Configurations

A configuration says how directives are called, which fonts are known besides the bundled ones, and
what holds where a style sheet says nothing. It can be given as JSON: an object of options, or an
array of them in their order.
-/

import LeadingTrim.Metrics.FontTable

namespace LeadingTrim

/-- A configuration. -/
structure Config where
  /-- The vendor whose prefix the property has. -/
  vendor : Option Text
  /-- Fonts besides the bundled ones; they win. -/
  fonts : FontTable
  /-- The family that is tried last. -/
  defaultFamily : Text
  /-- The line height where none is given. -/
  defaultLineHeight : Float

/-- A default line height: a number other than zero that is finite, or else one. -/
def soundLineHeight (value : Float) : Float :=
  if value.isFinite && value != 0.0 then value else 1.0

/-- The default line height that a text gives. -/
def lineHeightOfText (t : Text) : Float := soundLineHeight ((Decimal.float? t.trim).getD 0.0)

namespace Config

/-- The configuration where nothing is said. -/
def default : Config := ⟨none, .empty, "serif".toList, 1.0⟩

/-- The name of the property without a vendor. -/
def plainProperty : Text := "text-remove-gap".toList

/-- The name of the property. An empty vendor is none. -/
def property (c : Config) : Text :=
  match c.vendor.filter fun v => !v.isEmpty with
  | some vendor => '-' :: vendor ++ '-' :: plainProperty
  | none => plainProperty

/-- The configuration with another default line height, or one in place of zero and of numbers that
are not finite. -/
def withLineHeight (c : Config) (value : Float) : Config :=
  { c with defaultLineHeight := soundLineHeight value }

/-- A default line height as an option: a number or a text. -/
def lineHeightOption? : Json → Option Float
  | .number n => n.toFloat?
  | .string t => some (lineHeightOfText t)
  | _ => none

/-- The names of the options, in their order. -/
def optionNames : List Text :=
  ["prefix", "fonts", "defaultFontFamily", "defaultLineHeight"].map String.toList

/-- The value of an option, by its name in an object and by its place in an array. An array may end
early. Absent values and `null` are none. -/
def option (v : Json) (name : String) : Option Json :=
  match v with
  | .object members => Json.lookup members name.toList
  | .array items => (items[optionNames.idxOf name.toList]?).bind Json.nonNull?
  | _ => none

/-- Whether a value has the shape of options: an object, whose unknown members do not count, or an
array with no more items than there are options. -/
def isOptions : Json → Bool
  | .object _ => true
  | .array items => items.length ≤ optionNames.length
  | _ => false

/-- The configuration that a value gives; none if the value does not have the shape of options or an
option is not of its type. Options that are absent or `null` are as in the default. -/
def ofJson? (v : Json) : Option Config := do
  guard (isOptions v)
  let vendor ← Json.optional Json.text? (option v "prefix")
  let fonts ← Json.optional FontTable.ofJson? (option v "fonts")
  let family ← Json.optional Json.text? (option v "defaultFontFamily")
  let lineHeight ← Json.optional lineHeightOption? (option v "defaultLineHeight")
  let config : Config := ⟨vendor, fonts.getD default.fonts, family.getD default.defaultFamily, 1.0⟩
  return config.withLineHeight (lineHeight.getD default.defaultLineHeight)

end Config

end LeadingTrim

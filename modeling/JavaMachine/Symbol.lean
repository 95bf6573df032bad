/-
# Symbols of native methods

A native method is found under a symbol made of its class and its name, and under a longer one that
adds its argument types. Each part is escaped so that a symbol holds letters, digits and underscores
only: `/` becomes `_`; `_`, `;` and `[` become `_1`, `_2` and `_3`; and any other character becomes
`_0` and four hexadecimal digits for each of its UTF-16 units.
-/
import JavaMachine.Descriptor
import JavaMachine.Text.Utf16

namespace JavaMachine

/-- The four lowercase hexadecimal digits of a UTF-16 unit. -/
def hexDigits (unit : UInt16) : List Char :=
  let n := unit.toNat
  [n / 4096, n / 256 % 16, n / 16 % 16, n % 16].map Nat.digitChar

/-- What one character is written as in a symbol. -/
def escapeChar (c : Char) : List Char :=
  if c.isAlphanum then [c]
  else if c = '/' then ['_']
  else if c = '_' then ['_', '1']
  else if c = ';' then ['_', '2']
  else if c = '[' then ['_', '3']
  else (utf16Units c).flatMap fun unit => '_' :: '0' :: hexDigits unit

/-- One part of a symbol. -/
def escapeName (part : String) : String :=
  String.ofList (part.toList.flatMap escapeChar)

/-- The symbol of a class and a method name. -/
def shortSymbol (className methodName : String) : String :=
  "Java_" ++ escapeName className ++ "_" ++ escapeName methodName

/-- The short symbol with the argument types added; a descriptor without arguments to read gives
none. -/
def longSymbol? (className methodName descriptor : String) : Option String :=
  (argumentText? descriptor).map fun arguments =>
    shortSymbol className methodName ++ "_" ++ escapeName arguments

end JavaMachine

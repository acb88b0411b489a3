import DigitReach.Journal

/-!
# Operands

Operands are digits. They are given as a text of one or more characters `0` to `9`,
each of which is an operand; signs, blanks, and the digits of other scripts are
refused. A text is checked character by character, and read byte by byte.
-/

namespace DigitReach

/-- The greatest operand. -/
def maxOperand : Nat := 9

/-- Why a text is not read as operands. -/
inductive DigitsError where
  /-- It has no characters. -/
  | empty
  /-- Not all of its characters are digits. -/
  | nonDigit (text : String)
deriving DecidableEq, Repr

/-- The wording of an error. -/
def DigitsError.message : DigitsError → String
  | empty => "Digit string cannot be empty"
  | nonDigit text => s!"Digit string must contain only digits: {text}"

/-- Refuses a text that is not made of digits, at least one. -/
def checkDigits (text : String) : ExceptT DigitsError Journaled Unit := do
  note (.checkingDigits text)
  if text.isEmpty then
    note .noDigits
    throw .empty
  match text.toList.find? fun c => !c.isDigit with
  | none => pure ()
  | some char =>
    note (.foundNonDigit text char)
    throw (.nonDigit text)

/-- The operand that a byte stands for, counted from the byte of the digit `0`. -/
def operandOfByte (b : UInt8) : Nat := (b - '0'.toUInt8).toNat

/-- Reads a text of digits, one operand per byte: the digits have one byte each. -/
def readOperands (text : String) : ExceptT DigitsError Journaled (List Nat) := do
  checkDigits text
  let operands := text.toUTF8.data.toList.map operandOfByte
  note (.readOperands text operands)
  return operands

end DigitReach

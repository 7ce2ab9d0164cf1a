import MiniRuby.Token

/-!
# Syntax errors

What can be wrong with a program text, and where.
-/

namespace MiniRuby

/-- Why a text is not a program. -/
inductive SyntaxCause where
  | unexpectedEnd
  | unexpectedToken
  | unexpectedChar (c : Char)
  | badFloat (text : String)
  | numberTooLong (digits : String)
  | integerTooBig
  | expectedKeyword (word : Keyword)
  | expectedIdentifier
  | methodNameNotIdentifier
  | invalidMethodName
  | invalidOperator
  | classInMethod
  | classNameNotConstant
  | dynamicConstant
  | notAssignable
  | duplicateParameter
  | requiredAfterOptional
  | elseWithoutRescue

/-- The wording of a cause. -/
def SyntaxCause.message : SyntaxCause → String
  | unexpectedEnd => "unexpected end-of-input"
  | unexpectedToken => "unexpected token"
  | unexpectedChar c => "unexpected character '" ++ String.singleton c ++ "'"
  | badFloat text => "bad float literal " ++ text
  | numberTooLong digits => "integer literal too big: " ++ digits
  | integerTooBig => "integer literal too big"
  | expectedKeyword word => "expected '" ++ word.text ++ "'"
  | expectedIdentifier => "expected identifier"
  | methodNameNotIdentifier => "method name must be an identifier"
  | invalidMethodName => "invalid method name"
  | invalidOperator => "invalid operator"
  | classInMethod => "class definition in method body"
  | classNameNotConstant => "class/module name must be CONSTANT"
  | dynamicConstant => "dynamic constant assignment"
  | notAssignable => "unexpected assignment"
  | duplicateParameter => "duplicated argument name"
  | requiredAfterOptional => "required argument after optional argument"
  | elseWithoutRescue => "else without rescue is useless"

/-- A fault of a program text and the place of it. -/
structure SyntaxError where
  cause : SyntaxCause
  span : Span

namespace SyntaxError

/-- The message shown for an error. -/
def message (e : SyntaxError) : String := "SyntaxError: " ++ e.cause.message

/-- Whether the text might be a program if it went on. -/
def isIncomplete (e : SyntaxError) : Bool :=
  match e.cause with
  | .unexpectedEnd => true
  | _ => false

end SyntaxError

end MiniRuby

import ConfidentialCoin.Text.Json.Token

/-!
# Passing over a JSON value

`skipValue` takes the tokens of one value, however deeply it nests, off a sequence of tokens. It
keeps the brackets that are open on a stack, so the depth costs no recursion.
-/

namespace ConfidentialCoin.Json

/-- A bracket that is open. -/
inductive Nesting where
  | members
  | elements
deriving DecidableEq, Repr

/-- What the next token has to be. -/
inductive Expecting where
  | value
  /-- A value or the end of an array just opened. -/
  | firstValue
  /-- The key of a member. -/
  | key
  /-- The key of a member or the end of an object just opened. -/
  | firstKey
  | colon
  /-- What may follow a value. -/
  | next
deriving DecidableEq, Repr

/-- What is left after the value that the state describes has been read to its end. -/
def skip : (opened : List Nesting) → (expecting : Expecting) → List Token → Option (List Token)
  | [], .next, rest => some rest
  | opened, .value, token :: rest => skipStart opened token rest
  | .elements :: opened, .firstValue, .closeBracket :: rest => skip opened .next rest
  | opened, .firstValue, token :: rest => skipStart opened token rest
  | opened, .key, .text _ :: rest => skip opened .colon rest
  | .members :: opened, .firstKey, .closeBrace :: rest => skip opened .next rest
  | opened, .firstKey, .text _ :: rest => skip opened .colon rest
  | opened, .colon, .colon :: rest => skip opened .value rest
  | .elements :: opened, .next, .comma :: rest => skip (.elements :: opened) .value rest
  | .elements :: opened, .next, .closeBracket :: rest => skip opened .next rest
  | .members :: opened, .next, .comma :: rest => skip (.members :: opened) .key rest
  | .members :: opened, .next, .closeBrace :: rest => skip opened .next rest
  | _, _, _ => none
where
  /-- Reads a value that begins with the given token. -/
  skipStart (opened : List Nesting) (token : Token) (rest : List Token) : Option (List Token) :=
    match token with
    | .openBrace => skip (.members :: opened) .firstKey rest
    | .openBracket => skip (.elements :: opened) .firstValue rest
    | .word => skip opened .next rest
    | .number _ => skip opened .next rest
    | .text _ => skip opened .next rest
    | _ => none

/-- The tokens after the value that they begin with. -/
def skipValue (tokens : List Token) : Option (List Token) := skip [] .value tokens

end ConfidentialCoin.Json

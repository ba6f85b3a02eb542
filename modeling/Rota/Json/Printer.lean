import Rota.Json.Quoted
/-! The text of a JSON value, without blanks between its parts. -/
namespace Rota.Json
open Rota.Text

def numberChars : Number → List Char
  | .int i => (intText i).toList
  | .real x => x.chars

mutual

def chars : Json → List Char
  | null => ['n', 'u', 'l', 'l']
  | bool true => ['t', 'r', 'u', 'e']
  | bool false => ['f', 'a', 'l', 's', 'e']
  | number n => numberChars n
  | string s => Quoted.render s
  | array items => '[' :: charsOfItems items
  | object fields => '{' :: charsOfFields fields

def charsOfItems : List Json → List Char
  | [] => [']']
  | [v] => chars v ++ [']']
  | v :: rest => chars v ++ ',' :: charsOfItems rest

def charsOfFields : List (String × Json) → List Char
  | [] => ['}']
  | [(name, v)] => Quoted.render name ++ ':' :: chars v ++ ['}']
  | (name, v) :: rest => Quoted.render name ++ ':' :: chars v ++ ',' :: charsOfFields rest

end

def render (v : Json) : String := String.ofList v.chars

end Rota.Json

import Primer.Number.Text
import Primer.Text.Quoted

/-!
Types and values of the language, and the explicit conversions between them.
-/

set_option autoImplicit false
set_option relaxedAutoImplicit false

namespace Primer

/-- The type of a value. `void` is the type of what gives nothing back. -/
inductive Ty where
  | number
  | string
  | boolean
  | list
  | void
deriving DecidableEq

namespace Ty

/-- All types, in the order of their tags. -/
def all : List Ty := [.number, .string, .boolean, .list, .void]

/-- The tag byte of a type. -/
def tag : Ty → UInt8
  | number => 0
  | string => 1
  | boolean => 2
  | list => 3
  | void => 4

def ofTag? (byte : UInt8) : Option Ty := all[byte.toNat]?

theorem ofTag?_tag (ty : Ty) : ofTag? ty.tag = some ty := by
  cases ty <;> rfl

/-- The one-word name. -/
def name : Ty → String
  | number => "number"
  | string => "string"
  | boolean => "boolean"
  | list => "list"
  | void => "void"

/-- The phrase that messages use. -/
def describe : Ty → String
  | number => "a number"
  | string => "a string"
  | boolean => "a boolean"
  | list => "a list"
  | void => "nothing"

/-- A conversion between the types exists, though it may fail on some values. -/
def convertsTo : Ty → Ty → Bool
  | number, string | string, number | boolean, string | string, boolean => true
  | source, target => source = target

end Ty

/-- Values are plain data. `void` stands for nothing and has no encoded form. -/
inductive Value where
  | number (n : Number)
  | string (s : String)
  | boolean (b : Bool)
  | list (items : List Value)
  | void

/-- Why a conversion failed: the value and the type it was asked to take. -/
structure ConversionFailure where
  value : Value
  target : Ty

namespace Value

instance : Inhabited Value := ⟨void⟩

def type : Value → Ty
  | number _ => .number
  | string _ => .string
  | boolean _ => .boolean
  | list _ => .list
  | void => .void

/-- What a variable of a type holds before anything is stored in it. -/
def initial? : Ty → Option Value
  | .number => some (number .zero)
  | .string => some (string "")
  | .boolean => some (boolean false)
  | .list => some (list [])
  | .void => none

def booleanText (b : Bool) : String := if b then "true" else "false"

/-- Texts joined by a separator. -/
def join (separator : String) : List String → String
  | [] => ""
  | first :: more => more.foldl (fun done next => done ++ separator ++ next) first

mutual

/-- The text of a value, as `print` shows it after conversion. -/
def text : Value → String
  | number n => n.text
  | string s => s
  | boolean b => booleanText b
  | list items => "[" ++ join ", " (itemTexts items) ++ "]"
  | void => "nothing"

def itemTexts : List Value → List String
  | [] => []
  | item :: items => text item :: itemTexts items

end

mutual

/-- The text of a value in a listing, where strings are quoted. -/
def quoted : Value → String
  | string s => Text.quote s
  | list items => "[" ++ join ", " (itemsQuoted items) ++ "]"
  | value => value.text

def itemsQuoted : List Value → List String
  | [] => []
  | item :: items => quoted item :: itemsQuoted items

end

mutual

/-- The text of a value under inspection, which names its type. -/
def inspect : Value → String
  | number n => "Number(" ++ n.inspect ++ ")"
  | string s => "String(" ++ Text.quote s ++ ")"
  | boolean b => "Boolean(" ++ booleanText b ++ ")"
  | list items => "List([" ++ join ", " (itemsInspected items) ++ "])"
  | void => "Void"

def itemsInspected : List Value → List String
  | [] => []
  | item :: items => inspect item :: itemsInspected items

end

mutual

/-- Equality as programs see it: of the same type, with numbers compared by `Number.equal`. -/
def equal : Value → Value → Bool
  | number a, number b => a.equal b
  | string a, string b => a == b
  | boolean a, boolean b => a == b
  | list xs, list ys => equalItems xs ys
  | void, void => true
  | _, _ => false

/-- Equality of items, one by one. -/
def equalItems : List Value → List Value → Bool
  | [], [] => true
  | x :: xs, y :: ys => equal x y && equalItems xs ys
  | _, _ => false

end

/-- The boolean that a text without outer blanks spells, in any case. -/
def parseBoolean? (cs : List Char) : Option Bool :=
  if Text.sameLetters cs "true".toList || Text.sameLetters cs "yes".toList then
    some true
  else if Text.sameLetters cs "false".toList || Text.sameLetters cs "no".toList then
    some false
  else
    none

/-- Convert a value to a type. A value of that type is left as it is; numbers and booleans turn
into their text; strings are read, without their outer blanks, as numbers or booleans. -/
def convert (value : Value) (target : Ty) : Except ConversionFailure Value :=
  if value.type = target then
    .ok value
  else
    let found : Option Value :=
      match value, target with
      | number n, .string => some (string n.text)
      | boolean b, .string => some (string (booleanText b))
      | string s, .number => (Number.parse? (Text.trim s.toList)).map number
      | string s, .boolean => (parseBoolean? (Text.trim s.toList)).map boolean
      | _, _ => none
    match found with
    | some converted => .ok converted
    | none => .error ⟨value, target⟩

end Value

def ConversionFailure.message (failure : ConversionFailure) : String :=
  let subject :=
    match failure.value with
    | .string s => "\"" ++ s ++ "\""
    | other => other.type.describe
  "I can't turn " ++ subject ++ " into " ++ failure.target.describe

end Primer

import Emend.Text.Quoted

/-!
Plain values: what may be given where a matcher is expected without being one, what a check may answer
instead of yes or no, and what a setting is given by. A value has a truth, a type that messages name,
and a form in which it is shown. -/
namespace Emend

def renderBool : Bool → String
  | true => "True"
  | false => "False"

/-- A plain value. A number with a point or an exponent is kept in the characters it is written in, and
a record is its keys beside the values under them. -/
inductive Value where
  | absent
  | flag (value : Bool)
  | whole (value : Int)
  | decimal (written : Text)
  | text (value : Text)
  | list (items : List Value)
  | record (keys : List Text) (values : List Value)
deriving Inhabited, Repr

namespace Value

/-- Whether the value counts as yes. Nothing, zero and whatever is empty do not. -/
def truth : Value → Bool
  | absent => false
  | flag value => value
  | whole value => value != 0
  | decimal written => (written.takeWhile (· != 'e')).any fun c => c.isDigit && c != '0'
  | text value => !value.isEmpty
  | list items => !items.isEmpty
  | record keys _ => !keys.isEmpty

/-- The type of the value, by the name that messages give it. -/
def typeName : Value → String
  | absent => "NoneType"
  | flag _ => "bool"
  | whole _ => "int"
  | decimal _ => "float"
  | text _ => "str"
  | list _ => "list"
  | record _ _ => "dict"

mutual

def render : Value → String
  | absent => "None"
  | flag value => renderBool value
  | whole value => toString value
  | decimal written => String.ofList written
  | text value => String.ofList value.quoted
  | list items => "[" ++ ", ".intercalate (renderAll items) ++ "]"
  | record keys values =>
    let entries := List.zipWith (fun key value => String.ofList key.quoted ++ ": " ++ value) keys
      (renderAll values)
    "\x7b" ++ ", ".intercalate entries ++ "\x7d"

def renderAll : List Value → List String
  | [] => []
  | head :: rest => head.render :: renderAll rest

end

end Value
end Emend

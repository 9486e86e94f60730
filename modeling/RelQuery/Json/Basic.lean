import RelQuery.NameMap

/-!
# JSON values

Numbers written as integers are kept as such; any other number is kept as text.  The
members of an object are kept in order, repeated keys included.
-/

namespace RelQuery

inductive Json where
  | null
  | bool (value : Bool)
  | int (value : Int)
  | real (text : String)
  | string (value : String)
  | array (items : List Json)
  | object (members : List (String × Json))
  deriving Repr

namespace Json

def valuesOf (key : String) (members : List (String × Json)) : List Json :=
  (members.filter (·.1 == key)).map (·.2)

mutual

/-- Lays one value over another: objects are joined key by key, and anything else is replaced. -/
def overlay : Json → Json → Json
  | object below, object above => .object (overlayMembers below above)
  | _, above => above

/-- Lays members over members, one after the other. -/
def overlayMembers : List (String × Json) → List (String × Json) → List (String × Json)
  | below, [] => below
  | below, (key, value) :: rest =>
    let joined := match below.lookup key with
      | some covered => overlay covered value
      | none => value
    overlayMembers (NameMap.insertEntry key joined below) rest

end

/-- The object that holds a value at the end of a path of keys. -/
def nest (path : List String) (value : Json) : Json :=
  path.foldr (fun key inner => .object [(key, inner)]) value

end Json

end RelQuery

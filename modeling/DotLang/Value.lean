/-!
# Typed values

An attribute value is a text that follows a grammar.  A typed value is what the
text means.  The class `AttrValue` pairs a reader with a canonical text, and
`ValueReason` lists why a text can fail to be a value.
-/

namespace DotLang

/-- The reasons why a text is no value. -/
inductive ValueReason
  /-- The text is none of the words of a closed set. -/
  | oneOf (words : List String)
  | boolean
  | booleanOrShape
  | number
  | integer
  /-- The number is below the least value of the attribute. -/
  | tooSmall (least : String)
  | hexDigits
  | hsvCount
  | hsvRange
  | schemeName
  | notColor
  | emptyColor
  | fractionRange
  | pointForm
  | misplacedEnd
  | misplacedStart
  | controlPoints
  | emptyShape
  /-- An opening parenthesis has no partner. -/
  | unclosed
  /-- A closing parenthesis has no partner. -/
  | unopened
  | styleName (name : String)
  | arrowShape (rest : String)
  | arrowCount
  | emptyPort
  | emptyPortName
  | compassPoint (text : String)
deriving DecidableEq, Repr

instance decEqExcept {ε α : Type} [DecidableEq ε] [DecidableEq α] : DecidableEq (Except ε α)
  | .error a, .error b => decidable_of_iff (a = b) (by simp)
  | .ok a, .ok b => decidable_of_iff (a = b) (by simp)
  | .error _, .ok _ => isFalse nofun
  | .ok _, .error _ => isFalse nofun

/-- The text between double quotes. -/
def inQuotes (s : String) : String := "\"" ++ s ++ "\""

/-- The explanation of a reason. -/
def ValueReason.message : ValueReason → String
  | .oneOf words => "expected one of " ++ ", ".intercalate words
  | .boolean => "expected a boolean"
  | .booleanOrShape => "expected a boolean or \"shape\""
  | .number => "expected a number"
  | .integer => "expected an integer"
  | .tooSmall least => "must be at least " ++ least
  | .hexDigits => "expected '#' followed by 6 or 8 hex digits"
  | .hsvCount => "expected three HSV components"
  | .hsvRange => "HSV components must be in the range [0, 1]"
  | .schemeName => "expected \"/scheme/name\""
  | .notColor => "not a color"
  | .emptyColor => "empty color"
  | .fractionRange => "color fractions must be in the range [0, 1]"
  | .pointForm => "expected \"x,y\" or \"x,y,z\""
  | .misplacedEnd => "misplaced end point"
  | .misplacedStart => "misplaced start point"
  | .controlPoints => "a spline needs 3n+1 control points"
  | .emptyShape => "empty shape"
  | .unclosed => "expected ')'"
  | .unopened => "unbalanced ')'"
  | .styleName name => "bad style name " ++ inQuotes name
  | .arrowShape rest => "unknown arrow shape " ++ inQuotes rest
  | .arrowCount => "expected one to four arrow shapes"
  | .emptyPort => "empty port"
  | .emptyPortName => "empty port name"
  | .compassPoint text => "unknown compass point " ++ inQuotes text

/-- Whether the text is a name: ASCII letters, digits and underscores, at least
one of them. -/
def isName (cs : List Char) : Bool := !cs.isEmpty && cs.all fun c => c.isAlphanum || c == '_'

/-- The values of a grammar: how a text is read and how a value is written. -/
class AttrValue (α : Type) where
  /-- The value that a text denotes. -/
  read : List Char → Except ValueReason α
  /-- The canonical text of a value. -/
  text : α → List Char

/-- The value that a text denotes. -/
def AttrValue.parse (α : Type) [AttrValue α] (s : String) : Except ValueReason α :=
  AttrValue.read s.toList

/-- The canonical text of a value. -/
def AttrValue.show {α : Type} [AttrValue α] (a : α) : String := String.ofList (AttrValue.text a)

end DotLang

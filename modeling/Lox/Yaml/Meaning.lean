import Lox.Number.Shortest
import Lox.Text.Base64
import Lox.Text.Integer
import Lox.Yaml.Node
import Lox.Yaml.Timestamp

/-!
# What scalars stand for

A plain scalar can be nothing, a truth value, an integer, a number with a fraction or a timestamp;
everything else is a text, and so is every quoted scalar. A tag says what a scalar has to be.
-/

namespace Lox

/-- A finite number without its fraction. -/
def Number.wholePart (x : Number) : Int :=
  let (m, q) := x.dyadic
  let magnitude : Nat := if 0 ≤ q then m <<< q.toNat else m >>> (-q).toNat
  if x.isNegative then -magnitude else magnitude

/-- The number nearest to an integer of 64 bits. -/
def Number.ofInteger (n : Int) : Number :=
  let x := ((⟨n.natAbs, 0⟩ : Decimal).nearest?).getD .infinity
  if n < 0 then x.neg else x

namespace Yaml

/-- What a scalar stands for. -/
inductive Meaning where
  | null
  | bool (b : Bool)
  /-- An integer; one without a sign can have 64 bits and exceed the signed ones. -/
  | integer (n : Int)
  | float (x : Number)
  | timestamp
  | string (t : Text)
  deriving DecidableEq, Repr

namespace Meaning

def tag : Meaning → Text
  | .null => text "!!null"
  | .bool _ => text "!!bool"
  | .integer _ => text "!!int"
  | .float _ => text "!!float"
  | .timestamp => text "!!timestamp"
  | .string _ => text "!!str"

/-- The words that stand for something else than themselves. -/
def words : List (String × Meaning) :=
  [("", .null), ("~", .null), ("null", .null), ("Null", .null), ("NULL", .null),
    ("true", .bool true), ("True", .bool true), ("TRUE", .bool true),
    ("false", .bool false), ("False", .bool false), ("FALSE", .bool false),
    (".nan", .float .nan), (".NaN", .float .nan), (".NAN", .float .nan),
    (".inf", .float .infinity), (".Inf", .float .infinity), (".INF", .float .infinity),
    ("+.inf", .float .infinity), ("+.Inf", .float .infinity), ("+.INF", .float .infinity),
    ("-.inf", .float Number.infinity.neg), ("-.Inf", .float Number.infinity.neg),
    ("-.INF", .float Number.infinity.neg)]

def ofWord? (t : Text) : Option Meaning :=
  (words.find? fun (w, _) => text w = t).map (·.2)

/-- A sign in front of a text: whether it is a minus, and the rest. -/
def splitSign : Text → Bool × Text
  | 45 :: rest => (true, rest)
  | 43 :: rest => (false, rest)
  | t => (false, t)

/-- The exponent that a text denotes: nothing, or an `e` with an integer. -/
def exponent? : Text → Option Int
  | [] => some 0
  | mark :: rest =>
    let (negative, digits) := splitSign rest
    if Text.lower mark == 101 && !digits.isEmpty && digits.all Text.isDigit then
      let n : Int := Text.toNat digits
      some (if negative then -n else n)
    else none

/-- The decimal that a numeral denotes. Its exponent is kept within bounds beyond which every number
is too large or rounds to zero. -/
def decimal? (t : Text) : Option Decimal :=
  let whole := t.takeWhile Text.isDigit
  let afterWhole := t.dropWhile Text.isDigit
  let (fraction, afterFraction) := match afterWhole with
    | 46 :: rest => (rest.takeWhile Text.isDigit, rest.dropWhile Text.isDigit)
    | rest => ([], rest)
  if whole.isEmpty && fraction.isEmpty then none
  else (exponent? afterFraction).map fun e =>
    let d := Decimal.ofDigits whole fraction
    let bound : Int := 400 + whole.length + fraction.length
    ⟨d.digits, max (-bound) (min bound (d.exponent + e))⟩

/-- The number that a numeral denotes, if it is not too large. -/
def float? (t : Text) : Option Number :=
  let (negative, magnitude) := splitSign t
  ((decimal? magnitude).bind Decimal.nearest?).map fun x => if negative then x.neg else x

/-- Each underscore stands between two digits. `afterDigit` says whether a digit stands before the
text. -/
def separatesDigits (afterDigit : Bool) : Text → Bool
  | [] => true
  | b :: rest =>
    if b = Text.underscore then
      afterDigit && (rest.head?.any Text.isDigit) && separatesDigits false rest
    else separatesDigits (Text.isDigit b) rest

/-- The number that a text with a point in front denotes. Underscores can stand between its digits. -/
def fraction? (t : Text) : Option Number :=
  if separatesDigits false t then float? (t.filter (· != Text.underscore)) else none

/-- The integer that a base mark with signed digits after it denotes. -/
def signedDigits? : Text → Option Int
  | 48 :: mark :: rest =>
    let base? : Option Nat := if mark = 98 then some 2 else if mark = 111 then some 8 else none
    base?.bind fun base =>
      let (negative, digits) := splitSign rest
      match digits, Text.readDigits base 0 digits with
      | _ :: _, .value n =>
        if negative then if n ≤ 0x8000000000000000 then some (-n) else none
        else if n < 0x8000000000000000 then some n
        else none
      | _, _ => none
  | _ => none

/-- The meaning of a text that starts like a numeral; underscores are ignored. An integer too large for
64 bits is a number with a fraction. -/
def ofNumeral (t : Text) : Meaning :=
  let digits := t.filter (· != Text.underscore)
  match Text.readInteger digits, Text.readNatural digits with
  | .value n, _ => .integer n
  | _, .value n => .integer n
  | _, _ =>
    match float? digits, signedDigits? digits with
    | some x, _ => .float x
    | none, some n => .integer n
    | none, none => .string t

/-- The meaning of a plain scalar. `dates` says whether it can be a timestamp. -/
def ofPlain (dates : Bool) (t : Text) : Meaning :=
  match ofWord? t, t with
  | some m, _ => m
  | none, b :: _ =>
    if Text.isDigit b || b == 43 || b == 45 then
      if dates && isTimestamp t then .timestamp else ofNumeral t
    else if b == 46 then
      match fraction? t with
      | some x => .float x
      | none => .string t
    else .string t
  | none, [] => .null

/-- The text of the key that merges mappings. -/
def mergeText : Text := text "<<"

/-- The tag of the key that merges mappings. -/
def mergeTag : Text := text "!!merge"

/-- The meaning of a scalar with a tag. An integer can be meant as a number with a fraction, and any
text as a text or as octets. -/
def ofTagged (tag content : Text) : Except Malformation Meaning :=
  if tag = text "!!str" then .ok (.string content)
  else if tag = text "!!binary" then
    match content.ofBase64? with
    | some t => .ok (.string t)
    | none => .error .badBase64
  else if tag = mergeTag && content = mergeText then .ok (.string content)
  else
    let found := ofPlain (tag = text "!!timestamp") content
    if found.tag = tag then .ok found
    else
      match found with
      | .integer n =>
        if tag = text "!!float" && n < 0x8000000000000000 then .ok (.float (.ofInteger n))
        else .error (.undecodable found.tag content tag)
      | _ => .error (.undecodable found.tag content tag)

/-- The meaning of a scalar. -/
def ofScalar (tag : Option Text) (plain : Bool) (content : Text) : Except Malformation Meaning :=
  match tag with
  | some tag => ofTagged tag content
  | none => .ok (if plain then ofPlain true content else .string content)

/-- The tag of a scalar as messages show it. -/
def shownTag (tag : Option Text) (plain : Bool) (content : Text) : Text :=
  match tag with
  | some tag => tag
  | none =>
    if !plain then text "!!str"
    else if content = mergeText then mergeTag
    else (ofPlain true content).tag

/-- What a scalar becomes as a text: the octets it stands for, or else its content as it is written. -/
def asText (content : Text) : Meaning → Text
  | .string t => t
  | _ => content

end Meaning

namespace Node

/-- A key merges mappings into its own. -/
def isMerge : Node → Bool
  | .scalar info plain content =>
    content = Meaning.mergeText && Meaning.shownTag info.tag plain content = Meaning.mergeTag
  | _ => false

end Node

end Yaml

end Lox

import Patchbay.Json.Basic
import Patchbay.Text.Quoted
import Patchbay.Json.Writer

/-!
# Decoding JSON values

What a document expects of a value. A document is gone through from left to right and the first
thing wrong is reported: a fault of the text, or a value that does not fit. Records may be written
as objects, in which unknown names are skipped, or as arrays of their fields in order.
-/

set_option autoImplicit false

namespace Patchbay

/-- A value as messages show it. -/
inductive JsonFound where
  | null
  | bool (b : Bool)
  | integer (n : Int)
  | double (x : Float)
  | string (s : String)
  | sequence
  | map

inductive JsonMismatch where
  | wrongType (found : JsonFound) (expected : String)
  | wrongInteger (n : Int) (expected : String)
  | wrongLength (length : Nat) (expected : String)
  | missingField (name : String)
  | duplicateField (name : String)
  /-- A node data value of no known shape. -/
  | unknownParam

inductive JsonError where
  | fault (f : JsonFault)
  | mismatch (m : JsonMismatch)

def JsonFound.text : JsonFound → String
  | null => "null"
  | bool b => "boolean `" ++ (if b then "true" else "false") ++ "`"
  | integer n => "integer `" ++ (if n < 0 then "-" else "") ++ digitText n.natAbs ++ "`"
  | double x => "floating point `" ++ Json.numberLayout.double x ++ "`"
  | string s => "string " ++ Quoted.encode s
  | sequence => "sequence"
  | map => "map"

def JsonMismatch.message : JsonMismatch → String
  | wrongType found expected => "invalid type: " ++ found.text ++ ", expected " ++ expected
  | wrongInteger n expected =>
    "invalid value: " ++ (JsonFound.integer n).text ++ ", expected " ++ expected
  | wrongLength n expected => "invalid length " ++ digitText n ++ ", expected " ++ expected
  | missingField name => "missing field `" ++ name ++ "`"
  | duplicateField name => "duplicate field `" ++ name ++ "`"
  | unknownParam => "data did not match any variant of untagged enum Param"

namespace Json

abbrev Decoded := Except JsonError

def faulty {α : Type} (f : JsonFault) : Decoded α := .error (.fault f)

def refuse {α : Type} (m : JsonMismatch) : Decoded α := .error (.mismatch m)

/-- Refuses a value of the wrong type, unless it is itself faulty. -/
def wrongType {α : Type} (expected : String) (j : Json) : Decoded α :=
  let found (f : JsonFound) : Decoded α := refuse (.wrongType f expected)
  match j with
  | null => found .null
  | bool b => found (.bool b)
  | number (.natural n) => found (.integer n)
  | number (.negative n) => found (.integer (-(n : Int)))
  | number (.double x) => found (.double x)
  | number .tooLarge => faulty .malformed
  | string (.text s) => found (.string s)
  | string .unpaired => faulty .malformed
  | string (.broken f _) => faulty f
  | array _ => found .sequence
  | object _ => found .map
  | broken f _ => faulty f

def text : Json → Decoded String
  | string (.text s) => .ok s
  | j => wrongType "a string" j

def toDouble? : JsonNumber → Option Float
  | .natural n => some n.toUInt64.toFloat
  | .negative n => some (-n.toUInt64.toFloat)
  | .double x => some x
  | .tooLarge => none

def double : Json → Decoded Float
  | number n =>
    match toDouble? n with
    | some x => .ok x
    | none => faulty .malformed
  | j => wrongType "f64" j

/-- A natural number below 2 ^ 32. -/
def word : Json → Decoded Nat
  | number (.natural n) => if n < UInt32.size then .ok n else refuse (.wrongInteger n "u32")
  | number (.negative n) => refuse (.wrongInteger (-(n : Int)) "u32")
  | j => wrongType "u32" j

def listItems {α : Type} (decode : Json → Decoded α) : JsonItems → Decoded (List α)
  | .done none => .ok []
  | .done (some f) => faulty f
  | .item v rest => do
    let x ← decode v
    let xs ← listItems decode rest
    return x :: xs

def list {α : Type} (decode : Json → Decoded α) : Json → Decoded (List α)
  | array items => listItems decode items
  | j => wrongType "a sequence" j

def optional {α : Type} (decode : Json → Decoded α) : Json → Decoded (Option α)
  | null => .ok none
  | j => some <$> decode j

/-- A name in a record or a map. -/
def key : JsonText → Decoded String
  | .text s => .ok s
  | .unpaired => faulty .malformed
  | .broken f _ => faulty f

/-- Members in order; the value is decoded right after its name. -/
def mapMembers {α : Type} (decode : Json → Decoded α) : JsonMembers → Decoded (List (String × α))
  | .done none => .ok []
  | .done (some f) => faulty f
  | .member k v rest => do
    let k ← key k
    let x ← decode v
    let xs ← mapMembers decode rest
    return (k, x) :: xs

def map {α : Type} (decode : Json → Decoded α) : Json → Decoded (List (String × α))
  | object members => mapMembers decode members
  | j => wrongType "a map" j

/-! ## Values without a type of their own -/

def skipText : JsonText → Decoded Unit
  | .broken _ f => faulty f
  | _ => .ok ()

mutual

/-- Goes over a value that nobody asked for. -/
def skip : Json → Decoded Unit
  | broken _ f => faulty f
  | string s => skipText s
  | array items => skipItems items
  | object members => skipMembers members
  | _ => .ok ()

def skipItems : JsonItems → Decoded Unit
  | .done none => .ok ()
  | .done (some f) => faulty f
  | .item v rest => do
    skip v
    skipItems rest

def skipMembers : JsonMembers → Decoded Unit
  | .done none => .ok ()
  | .done (some f) => faulty f
  | .member k v rest => do
    skipText k
    skip v
    skipMembers rest

end

/-- Containers may be nested to a depth below this one. -/
def nestingLimit : Nat := 128

mutual

/-- Goes over a value that is kept before its type is known, inside `depth` containers. -/
def hold (depth : Nat) : Json → Decoded Unit
  | broken f _ => faulty f
  | string s => (fun _ => ()) <$> key s
  | number .tooLarge => faulty .malformed
  | array items =>
    if nestingLimit ≤ depth + 1 then faulty .malformed else holdItems (depth + 1) items
  | object members =>
    if nestingLimit ≤ depth + 1 then faulty .malformed else holdMembers (depth + 1) members
  | _ => .ok ()

def holdItems (depth : Nat) : JsonItems → Decoded Unit
  | .done none => .ok ()
  | .done (some f) => faulty f
  | .item v rest => do
    hold depth v
    holdItems depth rest

def holdMembers (depth : Nat) : JsonMembers → Decoded Unit
  | .done none => .ok ()
  | .done (some f) => faulty f
  | .member k v rest => do
    let _ ← key k
    hold depth v
    holdMembers depth rest

end

/-! ## Records -/

/-- A field of a record that is filled in step by step. -/
structure FieldReader (σ : Type) where
  name : String
  isSet : σ → Bool
  decode : Json → σ → Decoded σ

namespace FieldReader

/-- A field that stays absent until it is read. -/
def of {σ α : Type} (name : String) (get : σ → Option α) (set : σ → α → σ)
    (decode : Json → Decoded α) : FieldReader σ :=
  ⟨name, fun s => (get s).isSome, fun j s => set s <$> decode j⟩

/-- A field that has to be there. -/
def need {α : Type} (missing : String → JsonMismatch) (name : String) (x : Option α) :
    Except JsonMismatch α :=
  match x with
  | some x => .ok x
  | none => .error (missing name)

end FieldReader

/-- The fields of an object. A known name may stand once, unknown ones are skipped. -/
def recordMembers {σ : Type} (fields : List (FieldReader σ)) : JsonMembers → σ → Decoded σ
  | .done none, s => .ok s
  | .done (some f), _ => faulty f
  | .member k v rest, s => do
    let k ← key k
    match fields.find? (·.name = k) with
    | some f =>
      if f.isSet s then refuse (.duplicateField f.name)
      else
        let s ← f.decode v s
        recordMembers fields rest s
    | none =>
      skip v
      recordMembers fields rest s

/-- The fields of an array, in order and without their names. Fields may be missing at the end;
more items than fields are a fault of the text. -/
def recordItems {σ : Type} : List (FieldReader σ) → JsonItems → σ → Decoded σ
  | _, .done none, s => .ok s
  | _, .done (some f), _ => faulty f
  | [], .item _ _, _ => faulty .malformed
  | f :: fields, .item v rest, s => do
    let s ← f.decode v s
    recordItems fields rest s

/-- A record. `finish` builds it from the fields found and calls its argument for a missing
one. -/
def record {σ α : Type} (name : String) (fields : List (FieldReader σ)) (init : σ)
    (finish : (String → JsonMismatch) → σ → Except JsonMismatch α) (j : Json) : Decoded α :=
  let build (missing : String → JsonMismatch) (s : σ) : Decoded α :=
    match finish missing s with
    | .ok x => .ok x
    | .error m => refuse m
  match j with
  | object members => do
    build .missingField (← recordMembers fields members init)
  | array items => do
    let s ← recordItems fields items init
    build (fun _ => .wrongLength items.length
      ("struct " ++ name ++ " with " ++ digitText fields.length ++ " elements")) s
  | j => wrongType ("struct " ++ name) j

/-- A whole text as a document. What follows the value comes last. -/
def document {α : Type} (decode : Json → Decoded α) (read : Json × Bool) : Decoded α := do
  let x ← decode read.1
  if read.2 then return x else faulty .malformed

end Json

end Patchbay

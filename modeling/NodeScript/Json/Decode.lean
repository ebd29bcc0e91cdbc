import NodeScript.Json
import NodeScript.Word

/-!
Reading data out of JSON values.

A record is written as an object with its fields, or as an array of their values in declared order.
Fields that the record does not have are ignored. One that it has must not be repeated.
-/

namespace NodeScript.Json

variable {α : Type}

def text? : Json → Option String
  | str value => some value
  | _ => none

def float? : Json → Option Float
  | int value => some (Float.ofInt value)
  | float value => some value
  | _ => none

def intBetween? (low high : Int) : Json → Option Int
  | int value => if low ≤ value ∧ value ≤ high then some value else none
  | _ => none

def word? (j : Json) : Option Nat :=
  Int.toNat <$> j.intBetween? 0 Word.greatest

def option? (decode : Json → Option α) : Json → Option (Option α)
  | null => some none
  | value => some <$> decode value

def list? (decode : Json → Option α) : Json → Option (List α)
  | arr items => items.mapM decode
  | _ => none

def table? (decode : Json → Option α) : Json → Option (Table α)
  | obj fields => Table.ofList <$> fields.mapM fun (key, value) => (key, ·) <$> decode value
  | _ => none

def alternative? : Json → Option String
  | str name => some name
  | obj [(name, null)] => some name
  | _ => none

structure Field where
  name : String
  aliases : List String

def Field.isCalled (field : Field) (name : String) : Bool :=
  field.name = name || field.aliases.contains name

abbrev Record := List (String × Json)

def record? (declared : List Field) : Json → Option Record
  | obj fields =>
    let given := fields.filterMap fun (key, value) =>
      (declared.find? fun field => field.isCalled key).map fun field => (field.name, value)
    if (given.map Prod.fst).Nodup then some given else none
  | arr items =>
    if items.length ≤ declared.length then some ((declared.map Field.name).zip items) else none
  | _ => none

def otherFields (declared : List Field) (fields : List (String × Json)) : List (String × Json) :=
  fields.filter fun (key, _) => !declared.any fun field => field.isCalled key

namespace Record

def required? (record : Record) (name : String) (decode : Json → Option α) : Option α :=
  (record.lookup name).bind decode

def optional? (record : Record) (name : String) (missing : α) (decode : Json → Option α) :
    Option α :=
  match record.lookup name with
  | some value => decode value
  | none => some missing

end Record

end NodeScript.Json

import NodeScript.Json.Decode
import NodeScript.Script.Dialog

/-!
What a host hears of a run.
-/

namespace NodeScript.Run

inductive Event where
  | log (text : String)
  | error (text : String)
  | prompt (message : String)
  | nodeEnter (node : String)
  | varUpdate (name : String) (value : Json)
  | done
  deriving Repr

namespace Event

def ofRequest : Script.Request → Event
  | .log text => log text
  | .prompt message => prompt message
  | .enter node => nodeEnter node
  | .update name value => varUpdate name value.toJson

def toJson : Event → Json
  | log text => .obj [("type", .str "log"), ("text", .str text)]
  | error text => .obj [("type", .str "error"), ("text", .str text)]
  | prompt message => .obj [("type", .str "prompt"), ("message", .str message)]
  | nodeEnter node => .obj [("type", .str "node-enter"), ("nodeId", .str node)]
  | varUpdate name value =>
    .obj [("type", .str "var-update"), ("name", .str name), ("value", value)]
  | done => .obj [("type", .str "done")]

def ofParts? (type : String) (contents : Json) : Option Event :=
  match type with
  | "log" => do
    let record ← contents.record? [⟨"text", []⟩]
    log <$> record.required? "text" Json.text?
  | "error" => do
    let record ← contents.record? [⟨"text", []⟩]
    error <$> record.required? "text" Json.text?
  | "prompt" => do
    let record ← contents.record? [⟨"message", []⟩]
    prompt <$> record.required? "message" Json.text?
  | "node-enter" => do
    let record ← contents.record? [⟨"nodeId", []⟩]
    nodeEnter <$> record.required? "nodeId" Json.text?
  | "var-update" => do
    let record ← contents.record? [⟨"name", []⟩, ⟨"value", []⟩]
    let name ← record.required? "name" Json.text?
    varUpdate name <$> record.required? "value" Json.canonical?
  | "done" => do
    let _ ← contents.record? []
    return done
  | _ => none

def ofJson? (j : Json) : Option Event := do
  let _ ← j.canonical?
  match j with
  | .obj fields => do
    let record ← j.record? [⟨"type", []⟩]
    let type ← record.required? "type" Json.text?
    ofParts? type (.obj (Json.otherFields [⟨"type", []⟩] fields))
  | .arr (type :: rest) => do
    ofParts? (← type.text?) (.arr rest)
  | _ => none

end Event

end NodeScript.Run

import Recalc.Config
import Recalc.Json.Reader
import Recalc.Json.Record
import Recalc.Tree.Basic
import Recalc.Tree.Diff

namespace Recalc

def Kind.label : Kind → String
  | .widget => "WIDGET"
  | .action => "ACTION"
  | .jsObject => "JS_OBJECT"
  | .other => "OTHER"

def Kind.ofLabel? (label : String) : Option Kind := Kind.all.find? fun kind => kind.label == label

def Event.label : Event → String
  | .new => "NEW"
  | .delete => "DELETE"
  | .edit => "EDIT"

def Event.ofLabel? (label : String) : Option Event :=
  [Event.new, .delete, .edit].find? fun event => event.label == label

namespace Json

def kind? (json : Json) : Option Kind := json.name?.bind Kind.ofLabel?

def event? (json : Json) : Option Event := json.name?.bind Event.ofLabel?

def kinds? (json : Json) : Option (List Kind) := do
  (← json.list?).mapM kind?

end Json

def Value.ofTexts (texts : List String) : Value := .arr (texts.map .str)

namespace Config

def ofJson? (json : Json) : Option Config := do
  let fields ← json.fields?
    ["internalFunctions", "ignoredGlobals", "parentEdges", "reportUnresolved",
      "bindingCacheCapacity"]
  match fields with
  | [functions, globals, edges, report, capacity] =>
    let functions ← Json.orDefault (·.texts?.map OrderedSet.ofList) standard.internalFunctions
      functions
    let globals ← Json.orDefault (·.texts?.map OrderedSet.ofList) standard.ignoredGlobals globals
    let edges ← Json.orDefault (·.kinds?.map OrderedSet.ofList) standard.parentEdges edges
    let report ← Json.orDefault (·.bool?) standard.reportUnresolved report
    let capacity ← Json.orDefault (·.word?) standard.cacheCapacity capacity
    some ⟨functions, globals, edges, report, capacity⟩
  | _ => none

def read? (text : String) : Option Config := (Json.read? text).bind ofJson?

def toValue (config : Config) : Value :=
  .obj [("internalFunctions", .ofTexts config.internalFunctions.toList),
    ("ignoredGlobals", .ofTexts config.ignoredGlobals.toList),
    ("parentEdges", .ofTexts (config.parentEdges.toList.map Kind.label)),
    ("reportUnresolved", .bool config.reportUnresolved),
    ("bindingCacheCapacity", .num config.cacheCapacity)]

end Config

namespace EntityConfig

def dependencyEntry? (member : String × Json) : Option (String × List String) :=
  member.2.texts?.map (member.1, ·)

def setterEntry? (member : String × Json) : Option (String × String) :=
  member.2.text?.map (member.1, ·)

def dependencies? (json : Json) : Option (OrderedMap String (List String)) := do
  return .ofList (← (← json.members?).mapM dependencyEntry?)

def setters? (json : Json) : Option (OrderedMap String String) := do
  return .ofList (← (← json.members?).mapM setterEntry?)

def ofJson? (json : Json) : Option EntityConfig := do
  let fields ← json.fields?
    ["kind", "id", "bindingPaths", "triggerPaths", "internalDependencies", "setterFunctions"]
  match fields with
  | [kind, id, bindings, triggers, dependencies, setters] =>
    let kind ← Json.required Json.kind? kind
    let id ← Json.orDefault (Json.nullable Json.text?) none id
    let bindings ← Json.orDefault (·.texts?.map OrderedSet.ofList) ∅ bindings
    let triggers ← Json.orDefault (·.texts?.map OrderedSet.ofList) ∅ triggers
    let dependencies ← Json.orDefault dependencies? ∅ dependencies
    let setters ← Json.orDefault setters? ∅ setters
    some ⟨kind, id, bindings, triggers, dependencies, setters⟩
  | _ => none

def toValue (config : EntityConfig) : Value :=
  .obj [("kind", .str config.kind.label),
    ("id", match config.id with
      | some id => .str id
      | none => .null),
    ("bindingPaths", .ofTexts config.bindingPaths.toList),
    ("triggerPaths", .ofTexts config.triggerPaths.toList),
    ("internalDependencies",
      .obj (config.internalDependencies.entries.map fun entry => (entry.1, .ofTexts entry.2))),
    ("setterFunctions",
      .obj (config.setterFunctions.entries.map fun entry => (entry.1, .str entry.2)))]

end EntityConfig

namespace Entity

-- The room is the number of levels that the entity may open.
def ofJson? (room : Nat) (json : Json) : Option Entity := do
  match ← json.fields? ["config", "value"] with
  | [config, value] =>
    let config ← Json.required EntityConfig.ofJson? config
    let value ← Json.orDefault (Json.value? (room - 1)) (.obj []) value
    some ⟨config, value⟩
  | _ => none

def read? (text : String) : Option Entity := (Json.read? text).bind (ofJson? Json.nestingLimit)

def toValue (entity : Entity) : Value :=
  .obj [("config", entity.config.toValue), ("value", entity.value)]

end Entity

namespace Tree

def ofJson? (json : Json) : Option Tree := do
  let entities ← (← json.members?).mapM fun member =>
    (Entity.ofJson? (Json.nestingLimit - 1) member.2).map fun entity => (member.1, entity)
  some (entities.foldl (fun tree entry => tree.insert entry.1 entry.2) ∅)

def read? (text : String) : Option Tree := (Json.read? text).bind ofJson?

def toValue (tree : Tree) : Value :=
  .obj (tree.entities.entries.map fun entry => (entry.1, entry.2.toValue))

end Tree

namespace Diff

def ofJson? (json : Json) : Option Diff := do
  match ← json.fields? ["event", "path", "value"] with
  | [event, path, value] =>
    let event ← Json.required Json.event? event
    let path ← Json.required Json.text? path
    let value ← Json.orDefault (Json.nullable (Json.value? (Json.nestingLimit - 1))) none value
    some ⟨event, path, value⟩
  | _ => none

def read? (text : String) : Option Diff := (Json.read? text).bind ofJson?

end Diff

end Recalc

import Recalc.Ordered.Map
import Recalc.Ordered.Set
import Recalc.Path.Parser
import Recalc.Tree.Kind
import Recalc.Value.Basic

namespace Recalc

-- Paths in it are relative to the entity.
structure EntityConfig where
  kind : Kind
  id : Option String
  bindingPaths : OrderedSet String
  triggerPaths : OrderedSet String
  -- Properties derived from other properties of the entity.
  internalDependencies : OrderedMap String (List String)
  -- Functions that write a property, with the property that they write.
  setterFunctions : OrderedMap String String

structure Entity where
  config : EntityConfig
  value : Value

namespace EntityConfig

def ofKind (kind : Kind) : EntityConfig := ⟨kind, none, ∅, ∅, ∅, ∅⟩

-- The canonical spelling of a relative path. The entity's name plays no part.
def canonical (relative : String) : String := (Path.ofRelative "_" relative).relative

def normalize (config : EntityConfig) : EntityConfig :=
  { config with
    bindingPaths := .ofList (config.bindingPaths.toList.map canonical)
    triggerPaths := .ofList (config.triggerPaths.toList.map canonical)
    internalDependencies := .ofList (config.internalDependencies.entries.map fun entry =>
      (canonical entry.1, entry.2.map canonical)) }

def scansTriggers (config : EntityConfig) : Bool :=
  config.kind.capabilities.form.isSome && config.kind.capabilities.scansTriggers

-- Whether a canonical relative path holds a binding.
def isDynamic (config : EntityConfig) (relative : String) : Bool :=
  config.kind.capabilities.form.isSome &&
    (config.bindingPaths.contains relative ||
      (config.kind.capabilities.scansTriggers && config.triggerPaths.contains relative))

-- The relative paths scanned for bindings, binding paths first.
def scannedPaths (config : EntityConfig) : List String :=
  (if config.kind.capabilities.form.isSome then config.bindingPaths.toList else []) ++
    (if config.scansTriggers then config.triggerPaths.toList else [])

-- The paths under which bindings call the setters of an entity.
def setterPaths (config : EntityConfig) (entity : String) : List Path :=
  if config.kind.capabilities.exposesSetters then
    config.setterFunctions.keys.map (Path.ofEntity entity).childKey
  else []

end EntityConfig

namespace Entity

def ofKind (kind : Kind) (value : Value) : Entity := ⟨.ofKind kind, value⟩

def kind (entity : Entity) : Kind := entity.config.kind

def reactive (entity : Entity) : Bool := entity.kind.reactive

def normalize (entity : Entity) : Entity := { entity with config := entity.config.normalize }

def withId (entity : Entity) (id : String) : Entity :=
  { entity with config := { entity.config with id := some id } }

def withBindings (entity : Entity) (paths : List String) : Entity :=
  { entity with config :=
    { entity.config with bindingPaths := entity.config.bindingPaths.insertMany paths } }

def withTriggers (entity : Entity) (paths : List String) : Entity :=
  { entity with config :=
    { entity.config with triggerPaths := entity.config.triggerPaths.insertMany paths } }

def withInternalDependency (entity : Entity) (property : String) (on : List String) : Entity :=
  { entity with config :=
    { entity.config with
      internalDependencies := entity.config.internalDependencies.insert property on } }

def withSetter (entity : Entity) (name property : String) : Entity :=
  { entity with config :=
    { entity.config with
      setterFunctions := entity.config.setterFunctions.insert name property } }

end Entity

end Recalc

import Recalc.Ordered.Set
import Recalc.Tree.Kind

namespace Recalc

structure Config where
  -- Functions of the platform that bindings may call.
  internalFunctions : OrderedSet String
  -- Names to ignore besides the built-in globals.
  ignoredGlobals : OrderedSet String
  -- Kinds whose containers depend on what they hold.
  parentEdges : OrderedSet Kind
  -- Whether unresolved references are reported. The edge is kept either way.
  reportUnresolved : Bool
  cacheCapacity : Nat
deriving DecidableEq

namespace Config

def defaultInternalFunctions : List String :=
  ["navigateTo", "showAlert", "showModal", "closeModal", "storeValue", "removeValue", "clearStore",
    "download", "copyToClipboard", "resetWidget", "setInterval", "clearInterval",
    "postWindowMessage"]

def builtinGlobals : List String :=
  ["Array", "Boolean", "Date", "Error", "Infinity", "Intl", "JSON", "Map", "Math", "NaN", "Number",
    "Object", "Promise", "Reflect", "RegExp", "Set", "String", "Symbol", "console", "decodeURI",
    "decodeURIComponent", "encodeURI", "encodeURIComponent", "isFinite", "isNaN", "parseFloat",
    "parseInt", "setTimeout", "clearTimeout", "window", "globalThis", "fetch", "atob", "btoa",
    "moment", "_", "forge", "xmlParser"]

def defaultCacheCapacity : Nat := 4096

def standard : Config :=
  ⟨.ofList defaultInternalFunctions, ∅, .ofList Kind.all, true, defaultCacheCapacity⟩

def isIgnoredGlobal (config : Config) (name : String) : Bool :=
  builtinGlobals.contains name || config.ignoredGlobals.contains name

def linksChildren (config : Config) (kind : Kind) : Bool := config.parentEdges.contains kind

def linksAllChildren (config : Config) : Bool := Kind.all.all config.linksChildren

-- The same settings, whatever the order of names and kinds.
def agrees (first second : Config) : Bool :=
  first.internalFunctions.sameMembers second.internalFunctions &&
    first.ignoredGlobals.sameMembers second.ignoredGlobals &&
    first.parentEdges.sameMembers second.parentEdges &&
    first.reportUnresolved == second.reportUnresolved &&
    first.cacheCapacity == second.cacheCapacity

end Config

end Recalc

import Recalc.Error.Basic
import Recalc.Ordered.Map
import Recalc.Path.Printer

namespace Recalc

-- Errors by the texts of their paths, in the order in which these first had
-- one. A text without errors is not listed.
structure ErrorStore where
  table : OrderedMap String (List DependencyError)

namespace ErrorStore

def empty : ErrorStore := ⟨∅⟩

instance : EmptyCollection ErrorStore := ⟨empty⟩

instance : Inhabited ErrorStore := ⟨empty⟩

def toList (store : ErrorStore) : List DependencyError := store.table.values.flatten

def paths (store : ErrorStore) : List String := store.table.keys

def atKey (store : ErrorStore) (key : String) : List DependencyError :=
  (store.table.get? key).getD []

def atPath (store : ErrorStore) (path : Path) : List DependencyError := store.atKey path.render

def ofKind (store : ErrorStore) (kind : ErrorKind) : List DependencyError :=
  store.toList.filter fun error => decide (error.kind = kind)

def size (store : ErrorStore) : Nat := store.toList.length

def isEmpty (store : ErrorStore) : Bool := store.table.isEmpty

def append (store : ErrorStore) (key : String) (errors : List DependencyError) : ErrorStore :=
  if errors.isEmpty then store else ⟨store.table.insert key (store.atKey key ++ errors)⟩

def put (store : ErrorStore) (key : String) (errors : List DependencyError) : ErrorStore :=
  if errors.isEmpty then ⟨store.table.erase key⟩ else ⟨store.table.insert key errors⟩

-- Keeps some of the errors at one key.
def retainAt (store : ErrorStore) (key : String) (keep : DependencyError → Bool) : ErrorStore :=
  store.put key ((store.atKey key).filter keep)

-- Keeps some of all errors.
def retain (store : ErrorStore) (keep : DependencyError → Bool) : ErrorStore :=
  ⟨(store.table.mapValues (·.filter keep)).filter fun _ errors => !errors.isEmpty⟩

-- The errors of reading the binding at a path; others of the path stay.
def replaceExtraction (store : ErrorStore) (path : Path) (errors : List DependencyError) :
    ErrorStore :=
  (store.retainAt path.render fun error => !error.isExtraction).append path.render errors

def isCycle (error : DependencyError) : Bool := decide (error.kind = .cyclicDependency)

def addCycle (store : ErrorStore) (cycle : List Path) : ErrorStore :=
  let members := cycle.map Path.render
  members.foldl (fun store member => store.append member [.cyclicDependency member members]) store

-- One error for each member of each cycle, in place of earlier such errors.
def replaceCycles (store : ErrorStore) (cycles : List (List Path)) : ErrorStore :=
  cycles.foldl addCycle (store.retain fun error => !isCycle error)

def namesReference (reference : String) : DependencyError → Bool
  | .unresolvedReference _ other => other == reference
  | _ => false

-- A reference that now exists is no longer unresolved.
def resolveReference (store : ErrorStore) (reference : Path) : ErrorStore :=
  store.retain fun error => !namesReference reference.render error

-- A reference that no longer exists is unresolved, which is said once.
def flagUnresolved (store : ErrorStore) (path reference : Path) : ErrorStore :=
  let error := DependencyError.unresolvedReference path.render reference.render
  if error ∈ store.atPath path then store else store.append path.render [error]

-- The errors of evaluating a path, in place of earlier such errors.
def recordEvaluation (store : ErrorStore) (path : Path) (messages : List String) : ErrorStore :=
  (store.retainAt path.render fun error => !decide (error.kind = .evaluation)).append path.render
    (messages.map (.evaluation path.render ·))

def clearPath (store : ErrorStore) (path : Path) : ErrorStore := ⟨store.table.erase path.render⟩

end ErrorStore

end Recalc

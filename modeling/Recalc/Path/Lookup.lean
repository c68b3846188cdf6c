import Recalc.Path.Basic
import Recalc.Value.Basic

namespace Recalc

namespace Value

-- A position also leads to the member that has its decimal spelling as name.
def child? : Value → Segment → Option Value
  | .obj members, segment => member? members segment.name
  | .arr items, .index position => items[position]?
  | _, _ => none

def get? (value : Value) : List Segment → Option Value
  | [] => some value
  | segment :: rest =>
    match value.child? segment with
    | some inner => inner.get? rest
    | none => none

-- The value after writing at the end of the steps, and whether the end was
-- reached. An object on the way gains the members that it lacks; what was
-- gained before a failure stays.
def set (value : Value) (steps : List Segment) (new : Value) : Value × Bool :=
  match steps with
  | [] => (new, true)
  | segment :: rest =>
    match value, segment with
    | .obj members, segment =>
      let inner := (member? members segment.name).getD (.obj [])
      let (inner, done) := inner.set rest new
      (.obj (putMember members segment.name inner), done)
    | .arr items, .index position =>
      match items[position]? with
      | none => (value, false)
      | some inner =>
        let (inner, done) := inner.set rest new
        (.arr (items.set position inner), done)
    | _, _ => (value, false)

end Value

namespace Path

def lookup (path : Path) (root : Value) : Option Value := root.get? path.segments

mutual

-- Every path at or below a value, containers before what they hold.
def allBelow (path : Path) : Value → List Path
  | .obj members => path :: allMembers path members
  | .arr items => path :: allItems path 0 items
  | _ => [path]

def allItems (path : Path) (position : Nat) : List Value → List Path
  | [] => []
  | value :: rest => allBelow (path.childIndex position) value ++ allItems path (position + 1) rest

def allMembers (path : Path) : List (String × Value) → List Path
  | [] => []
  | (name, value) :: rest => allBelow (path.childKey name) value ++ allMembers path rest

end

section Stack

variable {path : Path} {value : Value} {stack : List (Path × Value)}

-- Puts the parts of a value on a stack, the last of them first, so that the
-- first one comes out on top.
def pushParts (path : Path) (value : Value) (stack : List (Path × Value)) : List (Path × Value) :=
  match value with
  | .obj members =>
    members.reverse.foldl (fun stack member => (path.childKey member.1, member.2) :: stack) stack
  | .arr items =>
    items.zipIdx.reverse.foldl (fun stack item => (path.childIndex item.2, item.1) :: stack) stack
  | _ => stack

-- What a stack leaves to be listed.
def pending (stack : List (Path × Value)) : List Path :=
  stack.flatMap fun entry => entry.1.allBelow entry.2

theorem pending_cons : pending ((path, value) :: stack) = path.allBelow value ++ pending stack :=
  List.flatMap_cons

theorem allMembers_append_pending (members : List (String × Value)) :
    path.allMembers members ++ pending stack = pending (members.foldr
      (fun member stack => (path.childKey member.1, member.2) :: stack) stack) := by
  induction members with
  | nil => rfl
  | cons member rest ih =>
      rw [allMembers, List.append_assoc, ih, List.foldr_cons, pending_cons]

theorem allItems_append_pending (items : List Value) (position : Nat) :
    path.allItems position items ++ pending stack = pending ((items.zipIdx position).foldr
      (fun item stack => (path.childIndex item.2, item.1) :: stack) stack) := by
  induction items generalizing position with
  | nil => rfl
  | cons item rest ih =>
      rw [allItems, List.append_assoc, ih, List.zipIdx_cons, List.foldr_cons, pending_cons]

-- To list one path and to leave its parts to the stack leaves the same paths.
theorem allBelow_append_pending :
    path.allBelow value ++ pending stack = path :: pending (path.pushParts value stack) := by
  cases value with
  | obj members =>
      rw [allBelow, pushParts, List.foldl_reverse, List.cons_append, allMembers_append_pending]
  | arr items =>
      rw [allBelow, pushParts, List.foldl_reverse, List.cons_append, allItems_append_pending]
  | null => simp [allBelow, pushParts]
  | bool truth => simp [allBelow, pushParts]
  | num number => simp [allBelow, pushParts]
  | decimal negative digits exponent => simp [allBelow, pushParts]
  | str text => simp [allBelow, pushParts]

-- Lists paths as they come off a stack, behind what has been listed before.
def listStack (stack : List (Path × Value)) (listed : List Path) : List Path :=
  match stack with
  | [] => listed
  | (path, value) :: stack => listStack (path.pushParts value stack) (listed ++ [path])
termination_by (pending stack).length
decreasing_by
  rw [pending_cons, allBelow_append_pending, List.length_cons]
  exact Nat.lt_succ_self _

theorem listStack_eq (stack : List (Path × Value)) (listed : List Path) :
    listStack stack listed = listed ++ pending stack := by
  fun_induction listStack stack listed with
  | case1 listed => simp [pending]
  | case2 listed path value stack ih =>
      rw [ih, pending_cons, allBelow_append_pending, List.append_assoc, List.singleton_append]

-- Begun with one entry, the loop lists what the recursion lists.
theorem listStack_singleton (path : Path) (value : Value) :
    listStack [(path, value)] [] = path.allBelow value := by
  rw [listStack_eq, pending_cons, pending, List.flatMap_nil, List.append_nil, List.nil_append]

end Stack

end Path

end Recalc

import Recalc.Proofs.Path.Canonical
import Recalc.Proofs.Tree.Parts

namespace Recalc

namespace Value

variable {value inner new : Value} {segment second : Segment} {steps others rest : List Segment}

-- Whether a step can be taken for writing: into any member of an object, and
-- into the items that an array has.
def takes : Value → Segment → Bool
  | .obj _, _ => true
  | .arr items, .index position => decide (position < items.length)
  | _, _ => false

-- The value with another part at a step.
def putChild : Value → Segment → Value → Value
  | .obj members, segment, inner => .obj (putMember members segment.name inner)
  | .arr items, .index position, inner => .arr (items.set position inner)
  | value, _, _ => value

theorem set_cons (value : Value) (segment : Segment) (rest : List Segment) (new : Value) :
    value.set (segment :: rest) new =
      if value.takes segment = true then
        let written := ((value.child? segment).getD (.obj [])).set rest new
        (value.putChild segment written.1, written.2)
      else (value, false) := by
  cases value with
  | obj members => rfl
  | arr items =>
      cases segment with
      | key name => rfl
      | index position =>
          rw [set, child?, takes]
          by_cases hposition : position < items.length
          · rw [if_pos (decide_eq_true hposition), List.getElem?_eq_getElem hposition]
            rfl
          · rw [if_neg (by simpa using hposition),
              List.getElem?_eq_none (Nat.le_of_not_lt hposition)]
  | null => rfl
  | bool truth => rfl
  | num number => rfl
  | decimal negative digits exponent => rfl
  | str text => rfl

-- What takes a step is an object, or an array with an item at the position.
theorem takes_cases (h : value.takes segment = true) : (∃ members, value = .obj members) ∨
    ∃ items position, value = .arr items ∧ segment = .index position ∧ position < items.length := by
  cases value with
  | obj members => exact Or.inl ⟨members, rfl⟩
  | arr items =>
      cases segment with
      | key name => cases h
      | index position => exact Or.inr ⟨items, position, rfl, rfl, of_decide_eq_true h⟩
  | null => cases h
  | bool truth => cases h
  | num number => cases h
  | decimal negative digits exponent => cases h
  | str text => cases h

theorem takes_of_child? (h : value.child? segment = some inner) : value.takes segment = true := by
  cases value with
  | obj members => rfl
  | arr items =>
      cases segment with
      | key name => cases h
      | index position => exact decide_eq_true (List.getElem?_eq_some_iff.mp h).1
  | null => cases h
  | bool truth => cases h
  | num number => cases h
  | decimal negative digits exponent => cases h
  | str text => cases h

theorem putChild_of_child? (h : value.child? segment = some inner) :
    value.putChild segment inner = value := by
  obtain ⟨members, rfl⟩ | ⟨items, position, rfl, rfl, _⟩ := takes_cases (takes_of_child? h)
  · rw [putChild, putMember, OrderedMap.put_of_find? h]
  · obtain ⟨hposition, rfl⟩ := List.getElem?_eq_some_iff.mp h
    rw [putChild, List.set_getElem_self]

theorem child?_putChild_self (h : value.takes segment = true) (inner : Value) :
    (value.putChild segment inner).child? segment = some inner := by
  obtain ⟨members, rfl⟩ | ⟨items, position, rfl, rfl, hposition⟩ := takes_cases h
  · rw [putChild, child?, member?_putMember, if_pos rfl]
  · exact List.getElem?_set_self hposition

theorem child?_putChild_ne (hne : second.name ≠ segment.name) (inner : Value) :
    (value.putChild segment inner).child? second = value.child? second := by
  cases value with
  | obj members => rw [putChild, child?, member?_putMember, if_neg hne, child?]
  | arr items =>
      cases segment with
      | key name => rfl
      | index position =>
          cases second with
          | key name => rfl
          | index place =>
              refine List.getElem?_set_ne fun hsame => ?_
              exact hne (by rw [hsame])
  | null => rfl
  | bool truth => rfl
  | num number => rfl
  | decimal negative digits exponent => rfl
  | str text => rfl

-- What is made on the way takes all steps that are left.
theorem set_made (steps : List Segment) (new : Value) : ((obj []).set steps new).2 = true := by
  induction steps with
  | nil => rfl
  | cons segment rest ih =>
      rw [set_cons]
      exact ih

-- By induction on the steps: a writing that fails further down has gone into a
-- part that is there, and has left it as it was.
theorem set_of_failed (h : (value.set steps new).2 = false) : (value.set steps new).1 = value := by
  induction steps generalizing value with
  | nil => cases h
  | cons segment rest ih =>
      rw [set_cons] at h ⊢
      split at h
      · next htakes =>
        rw [if_pos htakes]
        dsimp only at h ⊢
        cases hchild : value.child? segment with
        | none =>
            rw [hchild, Option.getD_none, set_made] at h
            cases h
        | some inner =>
            rw [hchild, Option.getD_some] at h
            rw [Option.getD_some, ih h, putChild_of_child? hchild]
      · next htakes => rw [if_neg htakes]

-- The first step of a writing that does not fail.
theorem set_done_cons (h : (value.set (segment :: rest) new).2 = true) :
    value.takes segment = true ∧
      (((value.child? segment).getD (.obj [])).set rest new).2 = true ∧
        (value.set (segment :: rest) new).1 =
          value.putChild segment (((value.child? segment).getD (.obj [])).set rest new).1 := by
  rw [set_cons] at h ⊢
  split at h
  · next htakes =>
    rw [if_pos htakes]
    exact ⟨htakes, h, rfl⟩
  · cases h

-- A part way down, a writing goes on in what is there, or in what it has made.
theorem get?_set_append (h : (value.set (steps ++ rest) new).2 = true) :
    ∃ inner, (inner.set rest new).2 = true ∧
      (value.set (steps ++ rest) new).1.get? steps = some (inner.set rest new).1 ∧
        ∀ found, value.get? steps = some found → inner = found := by
  induction steps generalizing value with
  | nil => exact ⟨value, h, rfl, fun found hfound => Option.some_inj.mp hfound⟩
  | cons segment steps ih =>
      rw [List.cons_append] at h ⊢
      obtain ⟨htakes, hdone, hset⟩ := set_done_cons h
      obtain ⟨inner, hinner, hget, hsame⟩ := ih hdone
      refine ⟨inner, hinner, ?_, fun found hfound => ?_⟩
      · rw [hset]
        exact get?_cons.mpr ⟨_, child?_putChild_self htakes _, hget⟩
      · obtain ⟨next, hnext, hfound⟩ := get?_cons.mp hfound
        rw [hnext] at hsame
        exact hsame found hfound

-- At its steps and below, a writing that does not fail leaves what is written.
theorem get?_set_below (h : (value.set steps new).2 = true) (others : List Segment) :
    (value.set steps new).1.get? (steps ++ others) = new.get? others := by
  have hdone : (value.set (steps ++ []) new).2 = true := by rwa [List.append_nil]
  obtain ⟨inner, _, hget, _⟩ := get?_set_append hdone
  rw [List.append_nil] at hget
  exact get?_append hget others

theorem get?_made (hne : steps ≠ []) : (obj []).get? steps = none := by
  cases steps with
  | nil => exact absurd rfl hne
  | cons segment rest => rfl

-- Steps that part from the way of a writing lead where they led. By induction
-- on the way, along which the steps go together for a while.
theorem get?_set_apart (hsteps : ∀ s ∈ steps, s.Canonical) (hothers : ∀ s ∈ others, s.Canonical)
    (h : ¬steps <+: others) (k : ¬others <+: steps) :
    (value.set steps new).1.get? others = value.get? others := by
  induction steps generalizing value others with
  | nil => exact absurd List.nil_prefix h
  | cons segment rest ih =>
      cases others with
      | nil => exact absurd List.nil_prefix k
      | cons second others =>
          obtain ⟨hsegment, hrest⟩ := List.forall_mem_cons.mp hsteps
          obtain ⟨hsecond, hothers⟩ := List.forall_mem_cons.mp hothers
          rw [set_cons]
          split
          · next htakes =>
            dsimp only
            by_cases hsame : second = segment
            · subst hsame
              rw [List.prefix_cons_inj] at h k
              have hne : others ≠ [] := by
                rintro rfl
                exact k List.nil_prefix
              rw [get?, get?, child?_putChild_self htakes]
              dsimp only
              rw [ih hrest hothers h k]
              cases value.child? second with
              | none => exact get?_made hne
              | some inner => rfl
            · have hname : second.name ≠ segment.name := by
                intro hname
                refine hsame ?_
                rw [← Segment.ofName_name hsecond, hname, Segment.ofName_name hsegment]
              rw [get?, get?, child?_putChild_ne hname]
          · rfl

-- Containers that may have gained members, and have lost nothing and kept the
-- order of what they hold.
def Keeps : Value → Value → Prop
  | .obj members, .obj others => members.map Prod.fst <+: others.map Prod.fst
  | .arr items, .arr others => others.length = items.length
  | _, _ => False

theorem keeps_putChild (h : value.takes segment = true) (inner : Value) :
    Keeps value (value.putChild segment inner) := by
  obtain ⟨members, rfl⟩ | ⟨items, position, rfl, rfl, _⟩ := takes_cases h
  · rw [putChild, Keeps, putMember, OrderedMap.keys_put]
    split
    · exact List.prefix_rfl
    · exact List.prefix_append _ _
  · exact List.length_set

-- A container on the way of a writing.
theorem keeps_set (h : (value.set (steps ++ segment :: rest) new).2 = true)
    (hget : value.get? steps = some inner) : ∃ after,
      (value.set (steps ++ segment :: rest) new).1.get? steps = some after ∧ Keeps inner after := by
  obtain ⟨found, hdone, hafter, hsame⟩ := get?_set_append h
  obtain rfl := hsame inner hget
  obtain ⟨htakes, _, hset⟩ := set_done_cons hdone
  exact ⟨_, hafter, hset ▸ keeps_putChild htakes _⟩

-- When a writing does not fail: what there is on the way takes the next step.
theorem set_done_iff : (value.set steps new).2 = true ↔
    ∀ front segment back inner, steps = front ++ segment :: back →
      value.get? front = some inner → inner.takes segment = true := by
  constructor
  · rintro h front segment back inner rfl hget
    obtain ⟨found, hdone, _, hsame⟩ := get?_set_append h
    obtain rfl := hsame inner hget
    exact (set_done_cons hdone).1
  · intro h
    induction steps generalizing value with
    | nil => rfl
    | cons segment rest ih =>
        rw [set_cons, if_pos (h [] segment rest value rfl rfl)]
        dsimp only
        cases hchild : value.child? segment with
        | none => exact set_made rest new
        | some inner =>
            refine ih fun front second back found hrest hget => ?_
            exact h (segment :: front) second back found (by rw [hrest, List.cons_append])
              (get?_cons.mpr ⟨inner, hchild, hget⟩)

end Value

namespace Tree

variable {tree : Tree} {path : Path} {entity : Entity} {value found : Value}

theorem entity?_insert (tree : Tree) (name : String) (entity : Entity) (other : String) :
    (tree.insert name entity).entity? other =
      if other = name then some entity.normalize else tree.entity? other :=
  OrderedMap.get?_insert tree.entities name other entity.normalize

theorem entity?_erase (tree : Tree) (name other : String) :
    (tree.erase name).entity? other = if other = name then none else tree.entity? other :=
  OrderedMap.get?_erase tree.entities name other

theorem entity?_set (he : tree.entity? path.entity = some entity) (value : Value)
    (other : String) : (tree.set path value).1.entity? other =
      if other = path.entity then
        some { entity with value := (entity.value.set path.segments value).1 }
      else tree.entity? other := by
  unfold set
  rw [he]
  exact OrderedMap.get?_insert tree.entities path.entity other _

theorem get?_of_entity? (he : tree.entity? path.entity = some entity) :
    tree.get? path = path.lookup entity.value := by
  unfold get?
  rw [he]

theorem get?_set (he : tree.entity? path.entity = some entity) (other : Path)
    (hother : other.entity = path.entity) :
    (tree.set path value).1.get? other =
      other.lookup (entity.value.set path.segments value).1 := by
  have hset := entity?_set he value other.entity
  rw [if_pos hother] at hset
  exact get?_of_entity? hset

theorem set_of_entity? (he : tree.entity? path.entity = some entity) :
    (tree.set path value).2 = (entity.value.set path.segments value).2 := by
  unfold set
  rw [he]

-- A writing that fails leaves the tree as it was.
theorem set_failed (h : (tree.set path value).2 = false) : (tree.set path value).1 = tree := by
  cases he : tree.entity? path.entity with
  | none =>
      unfold set
      rw [he]
  | some entity =>
      rw [set_of_entity? he] at h
      have hsame := Value.set_of_failed h
      unfold set
      rw [he]
      dsimp only
      rw [hsame, putValue, OrderedMap.insert_of_get? he]

-- What a writing that has not failed makes of a tree: at the path and below it
-- the new value, elsewhere what was there, on the way the former containers
-- with what they held in its order, and no change to other entities.
structure Written (before : Tree) (path : Path) (value : Value) (after : Tree) : Prop where
  get? : after.get? path = some value
  below : ∀ steps, after.get? ⟨path.entity, path.segments ++ steps⟩ = value.get? steps
  apart : ∀ other : Path, (∀ segment ∈ other.segments, segment.Canonical) →
    path.startsWith other = false → other.startsWith path = false →
      after.get? other = before.get? other
  above : ∀ (other : Path) (found : Value), path.startsWith other = true → other ≠ path →
    before.get? other = some found →
      ∃ kept, after.get? other = some kept ∧ found.Keeps kept
  entity? : ∀ name ≠ path.entity, after.entity? name = before.entity? name
  config : (after.entity? path.entity).map Entity.config =
    (before.entity? path.entity).map Entity.config
  names : after.names = before.names

theorem names_set (he : tree.entity? path.entity = some entity) (value : Value) :
    (tree.set path value).1.names = tree.names := by
  have hkey : path.entity ∈ tree.entities.keys := OrderedMap.mem_keys_iff.mpr ⟨entity, he⟩
  unfold set
  rw [he]
  dsimp only [names, putValue]
  rw [OrderedMap.keys_insert, if_pos hkey]

theorem written_set (hpath : ∀ segment ∈ path.segments, segment.Canonical)
    (h : (tree.set path value).2 = true) : Written tree path value (tree.set path value).1 := by
  obtain ⟨entity, he⟩ : ∃ entity, tree.entity? path.entity = some entity := by
    cases he : tree.entity? path.entity with
    | none =>
        unfold set at h
        rw [he] at h
        cases h
    | some entity => exact ⟨entity, rfl⟩
  rw [set_of_entity? he] at h
  have hother : ∀ name ≠ path.entity,
      (tree.set path value).1.entity? name = tree.entity? name := by
    intro name hname
    rw [entity?_set he, if_neg hname]
  have hbelow : ∀ steps, (tree.set path value).1.get? ⟨path.entity, path.segments ++ steps⟩ =
      value.get? steps := by
    intro steps
    rw [get?_set he ⟨path.entity, path.segments ++ steps⟩ rfl, Path.lookup,
      Value.get?_set_below h]
  refine ⟨?_, hbelow, fun other hsteps habove hunder => ?_, fun other found habove hne hfound => ?_,
    hother, ?_, names_set he value⟩
  · have hend := hbelow []
    rwa [List.append_nil] at hend
  · by_cases hentity : other.entity = path.entity
    · rw [get?_set he other hentity, get?_of_entity? (hentity ▸ he)]
      refine Value.get?_set_apart hpath hsteps (fun hprefix => ?_) fun hprefix => ?_
      · exact Bool.eq_false_iff.mp hunder (Path.startsWith_iff.mpr ⟨hentity, hprefix⟩)
      · exact Bool.eq_false_iff.mp habove (Path.startsWith_iff.mpr ⟨hentity.symm, hprefix⟩)
    · rw [get?, get?, hother other.entity hentity]
  · obtain ⟨hentity, back, hsegments⟩ := Path.startsWith_iff.mp habove
    rw [get?_of_entity? (hentity ▸ he)] at hfound
    rw [get?_set he other hentity.symm, ← hsegments]
    rw [← hsegments] at h
    cases back with
    | nil =>
        rw [List.append_nil] at hsegments
        exact absurd (congrArg₂ Path.mk hentity.symm hsegments) hne
    | cons segment back => exact Value.keeps_set h hfound
  · rw [entity?_set he, if_pos rfl, he]
    rfl

-- When a writing does not fail: the entity is there, and what there is on the
-- way takes the next step.
theorem set_done_iff : (tree.set path value).2 = true ↔
    (tree.entity? path.entity).isSome = true ∧
      ∀ (above : Path) (segment : Segment) (found : Value),
        path.startsWith (above.child segment) = true → tree.get? above = some found →
          found.takes segment = true := by
  cases he : tree.entity? path.entity with
  | none =>
      unfold set
      rw [he]
      simp
  | some entity =>
      rw [set_of_entity? he, Value.set_done_iff, Option.isSome_some, and_iff_right rfl]
      constructor
      · intro h above segment found habove hfound
        obtain ⟨hentity, back, hsegments⟩ := Path.startsWith_iff.mp habove
        have hname : path.entity = above.entity := hentity
        rw [get?_of_entity? (hname ▸ he)] at hfound
        refine h above.segments segment back found ?_ hfound
        rw [← hsegments, Path.child, List.append_assoc, List.singleton_append]
      · intro h front segment back inner hsegments hinner
        refine h ⟨path.entity, front⟩ segment inner (Path.startsWith_iff.mpr ⟨rfl, back, ?_⟩) ?_
        · rw [hsegments, Path.child, List.append_assoc, List.singleton_append]
        · rw [get?_of_entity? (by exact he)]
          exact hinner

-- Writing is all or nothing, and it fails only where something is in the way.
theorem set_atomic (hpath : ∀ segment ∈ path.segments, segment.Canonical) (value : Value) :
    ((tree.set path value).2 = false → (tree.set path value).1 = tree) ∧
      ((tree.set path value).2 = true → Written tree path value (tree.set path value).1) ∧
        ((tree.set path value).2 = true ↔ (tree.entity? path.entity).isSome = true ∧
          ∀ (above : Path) (segment : Segment) (found : Value),
            path.startsWith (above.child segment) = true → tree.get? above = some found →
              found.takes segment = true) :=
  ⟨set_failed, written_set hpath, set_done_iff⟩

def listing : Tree :=
  (∅ : Tree).insert "List1" (.ofKind .widget (.obj [("rows", .arr [.obj [("id", .num 7)], .null])]))

-- Through an item, with two objects to be made, and into an item that takes no
-- further step.
theorem set_atomic_listing :
    let style : Path := ⟨"List1", [.key "rows", .index 0, .key "style", .index 2]⟩
    let blocked : Path := ⟨"List1", [.key "rows", .index 1, .key "style"]⟩
    (∀ segment ∈ style.segments, segment.Canonical) ∧
      (listing.set style (.bool true)).2 = true ∧
      Written listing style (.bool true) (listing.set style (.bool true)).1 ∧
      (listing.set blocked (.bool true)).2 = false ∧
      (listing.set blocked (.bool true)).1 = listing := by
  intro style blocked
  have hstyle : ∀ segment ∈ style.segments, segment.Canonical := by decide
  have hblocked : ∀ segment ∈ blocked.segments, segment.Canonical := by decide
  have hdone : (listing.set style (.bool true)).2 = true := by decide +kernel
  have hfails : (listing.set blocked (.bool true)).2 = false := by decide +kernel
  exact ⟨hstyle, hdone, (set_atomic hstyle (.bool true)).2.1 hdone, hfails,
    (set_atomic hblocked (.bool true)).1 hfails⟩

end Tree

end Recalc

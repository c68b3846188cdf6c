import Recalc.Proofs.Session.Replay
import Recalc.Proofs.Tree.Scalar

namespace Recalc

-- Paths that lead to one place: they are in one entity, and their steps go by
-- the same names.
structure Path.SamePlace (path other : Path) : Prop where
  entity : other.entity = path.entity
  names : other.segments.map Segment.name = path.segments.map Segment.name

namespace Tree

variable {tree first second third : Tree} {path other : Path} {name : String}
  {before after value found : Value}

theorem get?_congr_entity? (h : second.entity? path.entity = first.entity? path.entity) :
    second.get? path = first.get? path := by
  unfold get?
  rw [h]

-- A place holds one value, however it is spelled.
theorem get?_congr (hsame : path.SamePlace other) (h : tree.get? path = some value)
    (k : tree.get? other = some found) : found = value := by
  obtain ⟨entity, he, hlookup⟩ := entity?_of_get? h
  rw [get?_of_entity? (hsame.entity ▸ he)] at k
  exact Value.get?_congr hlookup k hsame.names

-- What stays of an entity whose scalars are written: how it is configured, and
-- which paths lead to a value.
structure SamePlaces (first second : Tree) (name : String) : Prop where
  config : (second.entity? name).map Entity.config = (first.entity? name).map Entity.config
  reach : ∀ path : Path, path.entity = name →
    (second.get? path).isSome = (first.get? path).isSome

theorem SamePlaces.of_entity? (h : second.entity? name = first.entity? name) :
    SamePlaces first second name :=
  ⟨by rw [h], fun path hpath => by rw [get?_congr_entity? (hpath ▸ h)]⟩

theorem SamePlaces.trans (h : SamePlaces first second name) (k : SamePlaces second third name) :
    SamePlaces first third name :=
  ⟨k.config.trans h.config, fun path hpath => (k.reach path hpath).trans (h.reach path hpath)⟩

theorem SamePlaces.isNone_iff (h : SamePlaces first second name) :
    second.entity? name = none ↔ first.entity? name = none := by
  rw [← Option.map_eq_none_iff, h.config, Option.map_eq_none_iff]

section Writing

variable (h : tree.get? path = some before) (hb : before.isScalar = true)

include h hb

theorem samePlaces_set (ha : after.isScalar = true) (name : String) :
    SamePlaces tree (tree.set path after).1 name := by
  obtain ⟨entity, he, hlookup⟩ := entity?_of_get? h
  by_cases hname : name = path.entity
  · subst hname
    have hnew := entity?_set he after path.entity
    rw [if_pos rfl] at hnew
    refine ⟨by rw [hnew, he]; rfl, fun other hother => ?_⟩
    rw [get?_of_entity? (hother ▸ hnew), get?_of_entity? (hother ▸ he)]
    exact Value.isSome_get?_set hlookup hb ha other.segments
  · exact .of_entity? (by rw [entity?_set he, if_neg hname])

theorem get?_set_same (after : Value) (hsame : path.SamePlace other)
    (k : tree.get? other = some found) : (tree.set path after).1.get? other = some after := by
  obtain rfl := get?_congr hsame h k
  obtain ⟨entity, he, hlookup⟩ := entity?_of_get? h
  have hnew := entity?_set he after other.entity
  rw [if_pos hsame.entity] at hnew
  rw [get?_of_entity? (hsame.entity ▸ he)] at k
  rw [get?_of_entity? hnew]
  exact (Value.get?_set hlookup hb k hb).trans (if_pos hsame.names)

theorem get?_set_other (after : Value) (hother : ¬path.SamePlace other)
    (k : tree.get? other = some found) (hf : found.isScalar = true) :
    (tree.set path after).1.get? other = some found := by
  obtain ⟨entity, he, hlookup⟩ := entity?_of_get? h
  have hnew := entity?_set he after other.entity
  by_cases hentity : other.entity = path.entity
  · rw [if_pos hentity] at hnew
    rw [get?_of_entity? (hentity ▸ he)] at k
    rw [get?_of_entity? hnew]
    exact (Value.get?_set hlookup hb k hf).trans (if_neg fun hnames => hother ⟨hentity, hnames⟩)
  · rw [if_neg hentity] at hnew
    rw [get?_congr_entity? hnew, k]

end Writing

end Tree

-- The diffs turn a tree into another one, each of them where the one before
-- has led. A whole entity comes in where there is none of its name or goes; a
-- scalar is replaced by another, which the diff need not tell.
inductive Revises (tree : Tree) : Tree → List Diff → Prop
  | done {now : Tree} (h : ∀ name, tree.entity? name = now.entity? name) : Revises tree now []
  | new {now : Tree} {diff : Diff} {rest : List Diff} (entity : Entity)
      (hevent : diff.event = .new) (hwhole : diff.target.isEntity = true)
      (hmissing : now.entity? diff.target.entity = none)
      (hrest : Revises tree (now.insert diff.target.entity entity) rest) :
      Revises tree now (diff :: rest)
  | delete {now : Tree} {diff : Diff} {rest : List Diff}
      (hevent : diff.event = .delete) (hwhole : diff.target.isEntity = true)
      (hrest : Revises tree (now.erase diff.target.entity) rest) :
      Revises tree now (diff :: rest)
  | edit {now : Tree} {diff : Diff} {rest : List Diff} (before after : Value)
      (hevent : diff.event = .edit) (hbefore : now.get? diff.target = some before)
      (hb : before.isScalar = true) (ha : after.isScalar = true)
      (htold : diff.value = none ∨ diff.value = some after)
      (hrest : Revises tree (now.set diff.target after).1 rest) :
      Revises tree now (diff :: rest)

namespace Revises

variable {tree now : Tree} {diffs : List Diff} {name : String} {path : Path} {text : String}

-- What comes in or goes is a whole entity.
theorem whole (h : Revises tree now diffs) :
    ∀ diff ∈ diffs, diff.event ≠ .edit → diff.target.isEntity = true := by
  induction h with
  | done h => exact fun diff hd => absurd hd List.not_mem_nil
  | new entity hevent hwhole hmissing hrest ih =>
      exact List.forall_mem_cons.mpr ⟨fun _ => hwhole, ih⟩
  | delete hevent hwhole hrest ih => exact List.forall_mem_cons.mpr ⟨fun _ => hwhole, ih⟩
  | edit before after hevent hbefore hb ha htold hrest ih =>
      exact List.forall_mem_cons.mpr ⟨fun hne => absurd hevent hne, ih⟩

-- What is there is not what comes in, nor what another deletion takes.
theorem entity?_of_new {diff : Diff} (entity : Entity)
    (hmissing : now.entity? diff.target.entity = none) (hthere : now.entity? name ≠ none) :
    (now.insert diff.target.entity entity).entity? name = now.entity? name := by
  have hname : name ≠ diff.target.entity := fun he => hthere (he ▸ hmissing)
  rw [Tree.entity?_insert, if_neg hname]

theorem entity?_of_delete (now : Tree) {diff : Diff} (hname : diff.target.entity ≠ name) :
    (now.erase diff.target.entity).entity? name = now.entity? name := by
  rw [Tree.entity?_erase, if_neg (Ne.symm hname)]

-- An entity that is there and does not go stays, apart from its scalars.
theorem samePlaces (h : Revises tree now diffs) (hkept : ¬Takes diffs name)
    (hthere : now.entity? name ≠ none) : Tree.SamePlaces now tree name := by
  induction h with
  | done h => exact .of_entity? (h name)
  | @new now diff rest entity hevent hwhole hmissing hrest ih =>
      obtain ⟨_, hkept⟩ := not_or.mp (mt takes_cons.mpr hkept)
      have hsame := entity?_of_new entity hmissing hthere
      exact .trans (.of_entity? hsame) (ih hkept (hsame ▸ hthere))
  | @delete now diff rest hevent hwhole hrest ih =>
      obtain ⟨hname, hkept⟩ := not_or.mp (mt takes_cons.mpr hkept)
      have hsame := entity?_of_delete now fun he => hname ⟨hevent, he⟩
      exact .trans (.of_entity? hsame) (ih hkept (hsame ▸ hthere))
  | @edit now diff rest before after hevent hbefore hb ha htold hrest ih =>
      obtain ⟨_, hkept⟩ := not_or.mp (mt takes_cons.mpr hkept)
      have hsame := Tree.samePlaces_set hbefore hb ha name
      exact hsame.trans (ih hkept (mt hsame.isNone_iff.mp hthere))

-- An edit of the place that comes with another value than the text, or with
-- none where the tree has another.
def Overwritten (tree now : Tree) (diffs : List Diff) (path : Path) (text : String) : Prop :=
  ∃ diff ∈ diffs, diff.event = .edit ∧ diff.target.SamePlace path ∧
    (now.get? diff.target).isSome = true ∧
      diff.value.or (tree.get? diff.target) ≠ some (.str text)

theorem Overwritten.cons {next : Tree} (h : Overwritten tree next diffs path text) (diff : Diff)
    (hplaces : Tree.SamePlaces now next path.entity) :
    Overwritten tree now (diff :: diffs) path text := by
  obtain ⟨edited, hd, hevent, hsame, hreach, hvalue⟩ := h
  refine ⟨edited, List.mem_cons_of_mem _ hd, hevent, hsame, ?_, hvalue⟩
  rwa [hplaces.reach edited.target hsame.entity.symm] at hreach

-- A text that is not there in the end has been overwritten. By induction on the
-- diffs: its place stays all the way, and an edit of it writes the text again
-- or is the one that is looked for.
theorem overwritten (h : Revises tree now diffs) (hkept : ¬Takes diffs path.entity)
    (hnow : now.get? path = some (.str text)) (hlost : tree.get? path ≠ some (.str text)) :
    Overwritten tree now diffs path text := by
  have hthere : now.entity? path.entity ≠ none := fun hnone => by
    obtain ⟨entity, he, _⟩ := Tree.entity?_of_get? hnow
    rw [hnone] at he
    cases he
  have hplaces := h.samePlaces hkept hthere
  induction h with
  | done h => exact absurd (Tree.get?_congr_entity? (h path.entity) ▸ hnow) hlost
  | @new now diff rest entity hevent hwhole hmissing hrest ih =>
      obtain ⟨_, hkept⟩ := not_or.mp (mt takes_cons.mpr hkept)
      have hsame := entity?_of_new entity hmissing hthere
      have hstay := (Tree.get?_congr_entity? hsame).trans hnow
      exact (ih hkept hstay (hsame ▸ hthere) (.trans (.of_entity? hsame.symm) hplaces)).cons
        diff (.of_entity? hsame)
  | @delete now diff rest hevent hwhole hrest ih =>
      obtain ⟨hname, hkept⟩ := not_or.mp (mt takes_cons.mpr hkept)
      have hsame := entity?_of_delete now fun he => hname ⟨hevent, he⟩
      have hstay := (Tree.get?_congr_entity? hsame).trans hnow
      exact (ih hkept hstay (hsame ▸ hthere) (.trans (.of_entity? hsame.symm) hplaces)).cons
        diff (.of_entity? hsame)
  | @edit now diff rest before after hevent hbefore hb ha htold hrest ih =>
      obtain ⟨_, hkept⟩ := not_or.mp (mt takes_cons.mpr hkept)
      have hset := Tree.samePlaces_set hbefore hb ha path.entity
      have hlater := fun hstay => (ih hkept hstay (mt hset.isNone_iff.mp hthere)
        (hrest.samePlaces hkept (mt hset.isNone_iff.mp hthere))).cons diff hset
      by_cases hplace : diff.target.SamePlace path
      · have hwritten := Tree.get?_set_same hbefore hb after hplace hnow
        by_cases hafter : after = .str text
        · exact hlater (hafter ▸ hwritten)
        · refine ⟨diff, List.mem_cons_self, hevent, hplace, by rw [hbefore]; rfl, fun hvalue => ?_⟩
          rcases htold with hnone | hsome
          · rw [hnone, Option.none_or] at hvalue
            obtain ⟨found, hfound⟩ := Option.isSome_iff_exists.mp
              ((hplaces.reach path rfl).trans (by rw [hnow]; rfl))
            obtain rfl := Tree.get?_congr hplace hvalue hfound
            exact hlost hfound
          · rw [hsome, Option.some_or] at hvalue
            exact hafter (Option.some_inj.mp hvalue)
      · exact hlater (Tree.get?_set_other hbefore hb after hplace hnow rfl)

-- The edit is about the entity and has found the text where it writes.
theorem exists_edit (h : Revises tree now diffs) (hkept : ¬Takes diffs path.entity)
    (hnow : now.get? path = some (.str text)) (hlost : tree.get? path ≠ some (.str text)) :
    ∃ diff ∈ diffs, diff.event = .edit ∧ diff.target.entity = path.entity ∧
      now.get? diff.target = some (.str text) ∧
        diff.value.or (tree.get? diff.target) ≠ some (.str text) := by
  obtain ⟨diff, hd, hevent, hsame, hreach, hvalue⟩ := h.overwritten hkept hnow hlost
  obtain ⟨found, hfound⟩ := Option.isSome_iff_exists.mp hreach
  obtain rfl := Tree.get?_congr hsame hfound hnow
  exact ⟨diff, hd, hevent, hsame.entity.symm, hfound, hvalue⟩

end Revises

end Recalc

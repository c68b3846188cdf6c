import Recalc.Proofs.Session.Reshaping
import Recalc.Proofs.Session.Specification
import Recalc.Proofs.Tree.Writing

namespace Recalc

namespace Tree

variable {tree : Tree} {name other : String} {entity : Entity} {path : Path}
  {before after : String}

-- What stays of an entity whose texts are written: what it brings and how it
-- is configured.
structure SameFrame (first second : Tree) (name : String) : Prop where
  keyPaths : second.keyPaths name = first.keyPaths name
  config : (second.entity? name).map Entity.config = (first.entity? name).map Entity.config

theorem SameFrame.of_entity? {first second : Tree} (h : second.entity? name = first.entity? name) :
    SameFrame first second name :=
  ⟨keyPaths_congr h, by rw [h]⟩

theorem SameFrame.trans {first second third : Tree} (h : SameFrame first second name)
    (k : SameFrame second third name) : SameFrame first third name :=
  ⟨k.keyPaths.trans h.keyPaths, k.config.trans h.config⟩

theorem SameFrame.isNone_iff {first second : Tree} (h : SameFrame first second name) :
    second.entity? name = none ↔ first.entity? name = none := by
  rw [← Option.map_eq_none_iff, h.config, Option.map_eq_none_iff]

theorem sameFrame_set (h : tree.get? path = some (.str before)) (after name : String) :
    SameFrame tree (tree.set path (.str after)).1 name := by
  obtain ⟨entity, he, hlookup⟩ := entity?_of_get? h
  have hget : entity.value.get? path.segments = some (.str before) := hlookup
  have hset := entity?_set he (.str after)
  by_cases hname : name = path.entity
  · subst hname
    have hnew := hset path.entity
    rw [if_pos rfl] at hnew
    refine ⟨?_, by rw [hnew, he]; rfl⟩
    rw [keyPaths_of_entity? hnew, keyPaths_of_entity? he, entityPaths, entityPaths, hnew, he]
    dsimp only
    rw [← Path.allBelow_blank, Value.blank_set hget, Path.allBelow_blank]
  · exact .of_entity? (by rw [hset, if_neg hname])

end Tree

-- The diffs turn a tree into another one, each of them where the one before
-- has led. A whole entity comes in where there is none of its name or goes; a
-- text is replaced by another.
inductive Replays (tree : Tree) : Tree → List Diff → Prop
  | done {now : Tree} (h : ∀ name, tree.entity? name = now.entity? name) : Replays tree now []
  | new {now : Tree} {diff : Diff} {rest : List Diff} (entity : Entity)
      (hevent : diff.event = .new) (hwhole : diff.target.isEntity = true)
      (hmissing : now.entity? diff.target.entity = none)
      (hrest : Replays tree (now.insert diff.target.entity entity) rest) :
      Replays tree now (diff :: rest)
  | delete {now : Tree} {diff : Diff} {rest : List Diff} (entity : Entity)
      (hevent : diff.event = .delete) (hwhole : diff.target.isEntity = true)
      (hthere : now.entity? diff.target.entity = some entity)
      (hrest : Replays tree (now.erase diff.target.entity) rest) :
      Replays tree now (diff :: rest)
  | edit {now : Tree} {diff : Diff} {rest : List Diff} (before after : String)
      (hevent : diff.event = .edit)
      (hlisted : diff.target ∈ now.entityPaths diff.target.entity)
      (hbefore : now.get? diff.target = some (.str before))
      (hafter : diff.value = some (.str after))
      (hrest : Replays tree (now.set diff.target (.str after)).1 rest) :
      Replays tree now (diff :: rest)

-- A diff by which the entity of a name comes in, or goes.
def Brings (diffs : List Diff) (name : String) : Prop :=
  ∃ diff ∈ diffs, diff.event = .new ∧ diff.target.entity = name

def Takes (diffs : List Diff) (name : String) : Prop :=
  ∃ diff ∈ diffs, diff.event = .delete ∧ diff.target.entity = name

section Events

variable {diff : Diff} {rest : List Diff} {name : String}

theorem not_brings_nil : ¬Brings [] name := fun ⟨_, h, _⟩ => absurd h List.not_mem_nil

theorem not_takes_nil : ¬Takes [] name := fun ⟨_, h, _⟩ => absurd h List.not_mem_nil

theorem brings_cons : Brings (diff :: rest) name ↔
    diff.event = .new ∧ diff.target.entity = name ∨ Brings rest name := by
  unfold Brings
  rw [List.exists_mem_cons_iff]

theorem takes_cons : Takes (diff :: rest) name ↔
    diff.event = .delete ∧ diff.target.entity = name ∨ Takes rest name := by
  unfold Takes
  rw [List.exists_mem_cons_iff]

end Events

namespace Replays

variable {former tree now : Tree} {diffs : List Diff} {name : String} {entity : Entity}

-- An entity that is there in the end has come in last, if it was missing or
-- has gone.
theorem brings (h : Replays tree now diffs) (hthere : tree.entity? name = some entity)
    (hgone : now.entity? name = none ∨ Takes diffs name) : Brings diffs name := by
  induction h with
  | done h =>
      rcases hgone with hnone | htakes
      · rw [h name, hnone] at hthere
        cases hthere
      · exact absurd htakes not_takes_nil
  | @new now diff rest entity hevent hwhole hmissing hrest ih =>
      rw [brings_cons]
      by_cases hname : diff.target.entity = name
      · exact Or.inl ⟨hevent, hname⟩
      · refine Or.inr (ih ?_)
        rw [Tree.entity?_insert, if_neg (Ne.symm hname)]
        refine hgone.imp_right fun htakes => (takes_cons.mp htakes).resolve_left ?_
        exact fun hd => hname hd.2
  | @delete now diff rest entity hevent hwhole hthere' hrest ih =>
      rw [brings_cons]
      refine Or.inr (ih ?_)
      by_cases hname : diff.target.entity = name
      · exact Or.inl (by rw [Tree.entity?_erase, if_pos hname.symm])
      · rw [Tree.entity?_erase, if_neg (Ne.symm hname)]
        refine hgone.imp_right fun htakes => (takes_cons.mp htakes).resolve_left ?_
        exact fun hd => hname hd.2
  | @edit now diff rest before after hevent hlisted hbefore hafter hrest ih =>
      rw [brings_cons]
      refine Or.inr (ih ?_)
      rw [(Tree.sameFrame_set hbefore after name).isNone_iff]
      refine hgone.imp_right fun htakes => (takes_cons.mp htakes).resolve_left ?_
      exact fun hd => by rw [hevent] at hd; cases hd.1

-- An entity that comes in without having gone was missing.
theorem missing (h : Replays tree now diffs) (hbrings : Brings diffs name)
    (hkept : ¬Takes diffs name) : now.entity? name = none := by
  induction h with
  | done h => exact absurd hbrings not_brings_nil
  | @new now diff rest entity hevent hwhole hmissing hrest ih =>
      obtain ⟨_, hkept⟩ := not_or.mp (mt takes_cons.mpr hkept)
      by_cases hname : diff.target.entity = name
      · exact hname ▸ hmissing
      · have hnone := ih ((brings_cons.mp hbrings).resolve_left fun hd => hname hd.2) hkept
        rwa [Tree.entity?_insert, if_neg (Ne.symm hname)] at hnone
  | @delete now diff rest entity hevent hwhole hthere hrest ih =>
      obtain ⟨hname, hkept⟩ := not_or.mp (mt takes_cons.mpr hkept)
      have hname : name ≠ diff.target.entity := fun he => hname ⟨hevent, he.symm⟩
      have hrest' := (brings_cons.mp hbrings).resolve_left fun hd => by
        rw [hevent] at hd
        cases hd.1
      have hnone := ih hrest' hkept
      rwa [Tree.entity?_erase, if_neg hname] at hnone
  | @edit now diff rest before after hevent hlisted hbefore hafter hrest ih =>
      obtain ⟨_, hkept⟩ := not_or.mp (mt takes_cons.mpr hkept)
      have hrest' := (brings_cons.mp hbrings).resolve_left fun hd => by
        rw [hevent] at hd
        cases hd.1
      exact (Tree.sameFrame_set hbefore after name).isNone_iff.mp (ih hrest' hkept)

-- An entity that neither comes in nor goes stays, apart from its texts.
theorem sameFrame (h : Replays tree now diffs) (hbrings : ¬Brings diffs name)
    (hkept : ¬Takes diffs name) : Tree.SameFrame now tree name := by
  induction h with
  | done h => exact .of_entity? (h name)
  | @new now diff rest entity hevent hwhole hmissing hrest ih =>
      obtain ⟨hname, hbrings⟩ := not_or.mp (mt brings_cons.mpr hbrings)
      obtain ⟨_, hkept⟩ := not_or.mp (mt takes_cons.mpr hkept)
      have hname : name ≠ diff.target.entity := fun he => hname ⟨hevent, he.symm⟩
      exact .trans (.of_entity? (by rw [Tree.entity?_insert, if_neg hname])) (ih hbrings hkept)
  | @delete now diff rest entity hevent hwhole hthere hrest ih =>
      obtain ⟨_, hbrings⟩ := not_or.mp (mt brings_cons.mpr hbrings)
      obtain ⟨hname, hkept⟩ := not_or.mp (mt takes_cons.mpr hkept)
      have hname : name ≠ diff.target.entity := fun he => hname ⟨hevent, he.symm⟩
      exact .trans (.of_entity? (by rw [Tree.entity?_erase, if_neg hname])) (ih hbrings hkept)
  | @edit now diff rest before after hevent hlisted hbefore hafter hrest ih =>
      obtain ⟨_, hbrings⟩ := not_or.mp (mt brings_cons.mpr hbrings)
      obtain ⟨_, hkept⟩ := not_or.mp (mt takes_cons.mpr hkept)
      exact (Tree.sameFrame_set hbefore after name).trans (ih hbrings hkept)

-- What comes in or goes is a whole entity.
theorem whole (h : Replays tree now diffs) :
    ∀ diff ∈ diffs, diff.event ≠ .edit → diff.target.isEntity = true := by
  induction h with
  | done h => exact fun diff hd => absurd hd List.not_mem_nil
  | new entity hevent hwhole hmissing hrest ih =>
      exact List.forall_mem_cons.mpr ⟨fun _ => hwhole, ih⟩
  | delete entity hevent hwhole hthere hrest ih =>
      exact List.forall_mem_cons.mpr ⟨fun _ => hwhole, ih⟩
  | edit before after hevent hlisted hbefore hafter hrest ih =>
      exact List.forall_mem_cons.mpr ⟨fun hne => absurd hevent hne, ih⟩

end Replays

-- A tree whose entity of a name is there and takes part in the graph.
def Tree.TakesPart (tree : Tree) (name : String) : Prop :=
  ∃ entity, tree.entity? name = some entity ∧ entity.reactive = true

namespace Batch

variable {config : Config} {former tree now : Tree} {batch : Batch} {diff : Diff}
  {diffs : List Diff} {path : Path}

-- An entity that comes in as part of the graph brings its keys. One outside
-- the graph brings nothing.
theorem mem_keys_applyDiff_comes (hwhole : diff.target.isEntity = true)
    (hevent : diff.event = .new) :
    path ∈ (applyDiff config former tree batch diff).keys ↔ path ∈ batch.keys ∨
      tree.TakesPart diff.target.entity ∧ path ∈ tree.keyPaths diff.target.entity := by
  unfold applyDiff Tree.TakesPart
  rw [hevent]
  dsimp only
  cases he : tree.entity? diff.target.entity with
  | none => simp
  | some entity =>
      dsimp only
      split
      · next hr =>
        rw [Path.eq_ofEntity hwhole, keys_onNew, mem_keys_growNew he]
        simp [Path.ofEntity, hr]
      · next hr => simp [onOutside, hr]

-- A key is lost to every deletion of its entity that the former tree has it
-- for, and comes back only with an entity that takes part in the graph.
theorem mem_keys_foldl_applyDiff (h : Replays tree now diffs)
    (hedit : ∀ diff ∈ diffs, diff.event ≠ .edit) :
    path ∈ (diffs.foldl (applyDiff config former tree) batch).keys ↔
      path ∈ batch.keys ∧ (Takes diffs path.entity → path ∉ former.keyPaths path.entity) ∨
        Brings diffs path.entity ∧ tree.TakesPart path.entity ∧
          path ∈ tree.keyPaths path.entity := by
  induction h generalizing batch with
  | done h => simp [not_brings_nil, not_takes_nil]
  | @new now diff rest entity hevent hwhole hmissing hrest ih =>
      have hback : Takes rest path.entity → tree.TakesPart path.entity →
          Brings rest path.entity := fun htakes ⟨entity, he, _⟩ =>
        hrest.brings he (Or.inr htakes)
      rw [List.foldl_cons, ih (List.forall_mem_cons.mp hedit).2,
        mem_keys_applyDiff_comes hwhole hevent, brings_cons, takes_cons]
      by_cases hname : diff.target.entity = path.entity
      · rw [hname]
        simp only [hevent, reduceCtorEq, false_and, false_or, true_and, true_or]
        tauto
      · have hout : path ∉ tree.keyPaths diff.target.entity :=
          fun hp => hname (tree.allIn_keyPaths _ path hp).symm
        simp only [hout, hname, and_false, or_false, false_or]
  | @delete now diff rest entity hevent hwhole hthere hrest ih =>
      rw [List.foldl_cons, ih (List.forall_mem_cons.mp hedit).2,
        mem_keys_applyDiff_delete hwhole hevent, brings_cons, takes_cons]
      by_cases hname : diff.target.entity = path.entity
      · rw [hname]
        simp only [hevent, reduceCtorEq, false_and, false_or, true_and, true_or]
        tauto
      · have hout : path ∉ former.keyPaths diff.target.entity :=
          fun hp => hname (former.allIn_keyPaths _ path hp).symm
        simp only [hout, hname, not_false_eq_true, and_true, and_false, false_or]
  | edit before after hevent hlisted hbefore hafter hrest ih =>
      exact absurd hevent (List.forall_mem_cons.mp hedit).1

end Batch

namespace Session

variable {config : Config} {former tree last : Tree} {session : Session} {diffs : List Diff}
  {actions : List Action} {path : Path}

-- A run of batches, each of which fits the trees that it leads from and to.
inductive Course (fits : Tree → Tree → List Diff → Prop) : Tree → List Action → Tree → Prop
  | done (tree : Tree) : Course fits tree [] tree
  | batch {former tree last : Tree} {diffs : List Diff} {actions : List Action}
      (h : fits former tree diffs) (hrest : Course fits tree actions last) :
      Course fits former (.apply tree diffs :: actions) last

-- What every batch keeps that fits and leads to a tree that is seen, a run of
-- such batches keeps. By induction on the batches.
theorem Course.after {fits : Tree → Tree → List Diff → Prop} {seen : Tree → Prop}
    {keeps : Session → Prop} (hcourse : Course fits session.tree actions last)
    (hseen : ∀ tree ∈ visited session.tree actions, seen tree) (h : keeps session)
    (hstep : ∀ (session : Session) (tree : Tree) (diffs : List Diff), keeps session →
      fits session.tree tree diffs → seen tree → keeps (session.apply tree diffs).1) :
    keeps (session.after actions) := by
  generalize htree : session.tree = first at hcourse hseen
  induction hcourse generalizing session with
  | done tree => exact h
  | @batch former tree last diffs actions hfits hrest ih =>
      subst htree
      have hlater := fun seen hm => hseen seen (List.mem_cons_of_mem _ hm)
      exact ih (hstep session tree diffs h hfits (hlater tree List.mem_cons_self))
        (tree_apply _ _ _) hlater

-- The same of a run that begins with a fresh build.
theorem Course.of_start {fits : Tree → Tree → List Diff → Prop} {seen : Tree → Prop}
    {keeps : Session → Prop} {first : Tree} (hcourse : Course fits first actions last)
    (hseen : ∀ tree ∈ visited first actions, seen tree) (h : keeps (ofTree first config))
    (hstep : ∀ (session : Session) (tree : Tree) (diffs : List Diff), keeps session →
      fits session.tree tree diffs → seen tree → keeps (session.apply tree diffs).1) :
    keeps ((ofTree first config).after actions) := by
  have hfirst : (ofTree first config).tree = first := tree_start config _ first
  rw [← hfirst] at hcourse
  exact hcourse.after (by rwa [hfirst]) h hstep

theorem mem_keys_start (config : Config) (cache : Binding.Cache) (tree : Tree) :
    path ∈ (start config cache tree).keys ↔ path ∈ tree.knownPaths config := by
  unfold start reset
  rw [keys_sort]
  exact Built.mem_keys_ofTree (Binding.Cache.sound_clear cache)

theorem keys_batchOf (session : Session) (tree : Tree) (diffs : List Diff) :
    (session.batchOf tree diffs).keys =
      (diffs.foldl (Batch.applyDiff session.config session.tree tree)
        { Batch.start session.graph session.keys session.errors session.cache with
          keys := diffs.foldl (Batch.registerKeys tree) session.keys }).keys := rfl

theorem graph_batchOf (session : Session) (tree : Tree) (diffs : List Diff) :
    (session.batchOf tree diffs).graph =
      (diffs.foldl (Batch.applyDiff session.config session.tree tree)
        { Batch.start session.graph session.keys session.errors session.cache with
          keys := diffs.foldl (Batch.registerKeys tree) session.keys }).graph := rfl

-- After a batch of whole entities a session knows the functions of the
-- platform and all that the new tree brings, save what an entity outside the
-- graph brings that has gone in the batch and has come back.
theorem isKnown_replayed (config : Config) (happart : former.Apart config)
    (h : Replays tree former diffs) (hedit : ∀ diff ∈ diffs, diff.event ≠ .edit) (path : Path) :
    ((ofTree former config).apply tree diffs).1.isKnown path = true ↔
      path ∈ config.functionPaths ∨ path ∈ tree.keyPaths path.entity ∧
        (Takes diffs path.entity →
          tree.TakesPart path.entity ∨ path ∉ former.keyPaths path.entity) := by
  have hregistered : (∃ diff ∈ diffs, diff.event = .new ∧
      path ∈ tree.keyPaths diff.target.entity) ↔
        Brings diffs path.entity ∧ path ∈ tree.keyPaths path.entity := by
    constructor
    · rintro ⟨diff, hd, hevent, hp⟩
      have hname := tree.allIn_keyPaths _ path hp
      exact ⟨⟨diff, hd, hevent, hname.symm⟩, hname ▸ hp⟩
    · rintro ⟨⟨diff, hd, hevent, hname⟩, hp⟩
      exact ⟨diff, hd, hevent, hname ▸ hp⟩
  have hfunction : path ∈ config.functionPaths → path ∉ former.keyPaths path.entity :=
    happart.not_mem_keyPaths
  have hkept : ¬Brings diffs path.entity → ¬Takes diffs path.entity →
      (path ∈ tree.keyPaths path.entity ↔ path ∈ former.keyPaths path.entity) :=
    fun hb ht => by rw [(h.sameFrame hb ht).keyPaths]
  have hnew : Brings diffs path.entity → ¬Takes diffs path.entity →
      path ∉ former.keyPaths path.entity :=
    fun hb ht => Tree.not_mem_keyPaths (h.missing hb ht)
  have hgone : ¬Brings diffs path.entity → Takes diffs path.entity →
      path ∉ tree.keyPaths path.entity := fun hb ht hp => by
    obtain ⟨entity, he⟩ := Tree.exists_of_mem_keyPaths hp
    exact hb (h.brings he (Or.inr ht))
  rw [isKnown, Std.TreeSet.contains_iff_mem, keys_apply, keys_batchOf, ofTree, tree_start,
    Batch.mem_keys_foldl_applyDiff h hedit]
  dsimp only
  rw [Batch.mem_foldl_registerKeys fun diff hd _ => h.whole diff hd (hedit diff hd), hregistered,
    mem_keys_start, Tree.mem_knownPaths]
  -- What the former tree had is told apart by what has happened to the entity.
  by_cases hbrings : Brings diffs path.entity
  · by_cases htakes : Takes diffs path.entity
    · simp only [hbrings, htakes, true_and, forall_const]
      grind
    · simp only [hbrings, htakes, hnew hbrings htakes, true_and, false_or, false_imp_iff, and_true]
      grind
  · by_cases htakes : Takes diffs path.entity
    · simp only [hbrings, htakes, hgone hbrings htakes, false_and, or_false, forall_const]
      grind
    · simp only [hbrings, htakes, hkept hbrings htakes, false_and, or_false, false_imp_iff,
        and_true]
      exact or_comm

theorem plain_labelled (text : String) : (labelled text).Plain := by
  intro name hname
  obtain rfl : name = "Label" := List.mem_singleton.mp hname
  simp [Path.startsAccessor]

theorem plain_supplied (text : String) : (supplied text).Plain := by
  intro name hname
  rcases List.mem_pair.mp hname with rfl | rfl <;> simp [Path.startsAccessor]

section Returning

variable {name : String} {entity : Entity}

-- An entity that goes and comes back as it was.
theorem replays_returning (htarget : Path.parseLenient name = .ofEntity name)
    (he : tree.entity? name = some entity.normalize) :
    Replays tree tree [.delete name, .new name entity.value] := by
  have hdelete : (Diff.delete name).target = .ofEntity name := htarget
  have hnew : (Diff.new name entity.value).target = .ofEntity name := htarget
  have hgone : (tree.erase name).entity? name = none := by
    rw [Tree.entity?_erase, if_pos rfl]
  refine .delete entity.normalize rfl (by rw [hdelete]; rfl) (by rw [hdelete]; exact he)
    (.new entity rfl (by rw [hnew]; rfl) (by rw [hnew, hdelete]; exact hgone)
      (.done fun other => ?_))
  rw [hnew, hdelete, Tree.entity?_insert, Tree.entity?_erase]
  by_cases ho : other = name
  · subst ho
    exact he.trans (if_pos rfl).symm
  · exact ((if_neg ho).trans (if_neg ho)).symm

theorem whole_returning (name : String) (value : Value) :
    ∀ diff ∈ [Diff.delete name, Diff.new name value], diff.event ≠ .edit := by
  simp [Diff.delete, Diff.new]

-- An action that goes and comes back in one batch is known as before.
theorem isKnown_returning_api :
    let tree := supplied "{{ Api.data }}"
    ((ofTree tree .standard).apply tree [.delete "Api", .new "Api" api.value]).1.isKnown
      ⟨"Api", [.key "data"]⟩ = true :=
  (isKnown_replayed .standard apart_supplied.1 (replays_returning (by decide +kernel) rfl)
    (whole_returning _ _) _).mpr
      (Or.inr ⟨by decide +kernel, fun _ => Or.inl ⟨api.normalize, rfl, rfl⟩⟩)

def globals : Entity := .ofKind .other (.obj [("token", .str "secret")])

def guarded : Tree := (∅ : Tree).insert "Globals" globals

theorem apart_guarded : guarded.Apart .standard := .of_isNone (by decide +kernel)

-- Variables that go and come back are there, but no longer known.
theorem unknown_returning_globals :
    let token := Path.parseLenient "Globals.token"
    let session := ((ofTree guarded .standard).apply guarded
      [.delete "Globals", .new "Globals" globals.value]).1
    guarded.Apart .standard ∧
      Replays guarded guarded [.delete "Globals", .new "Globals" globals.value] ∧
      token ∈ guarded.allPaths ∧ (ofTree guarded .standard).isKnown token = true ∧
      session.isKnown token = false := by
  intro token session
  exact ⟨apart_guarded, replays_returning (by decide +kernel) rfl, by decide +kernel⟩

end Returning

end Session

end Recalc

import Recalc.Proofs.Path.Container
import Recalc.Proofs.Path.RoundTrip
import Recalc.Tree.Basic

namespace Recalc.Path

-- Paths of one entity.
def AllIn (entity : String) (paths : List Path) : Prop := ∀ path ∈ paths, path.entity = entity

theorem allIn_allBelow (path : Path) (value : Value) : AllIn path.entity (path.allBelow value) := by
  induction path, value using allBelow.induct
    (motive_2 := fun path position items => AllIn path.entity (path.allItems position items))
    (motive_3 := fun path members => AllIn path.entity (path.allMembers members)) with
  | case1 path members ih =>
      rw [allBelow]
      exact List.forall_mem_cons.mpr ⟨rfl, ih⟩
  | case2 path items ih =>
      rw [allBelow]
      exact List.forall_mem_cons.mpr ⟨rfl, ih⟩
  | case3 value path hobj harr =>
      rw [allBelow.eq_3 path value hobj harr]
      exact List.forall_mem_singleton.mpr rfl
  | case4 path position =>
      rw [allItems]
      exact fun _ h => absurd h List.not_mem_nil
  | case5 path position value rest ihvalue ihrest =>
      rw [allItems]
      exact List.forall_mem_append.mpr ⟨ihvalue, ihrest⟩
  | case6 path =>
      rw [allMembers]
      exact fun _ h => absurd h List.not_mem_nil
  | case7 path name value rest ihvalue ihrest =>
      rw [allMembers]
      exact List.forall_mem_append.mpr ⟨ihvalue, ihrest⟩

theorem startsWith_iff {path other : Path} : path.startsWith other = true ↔
    path.entity = other.entity ∧ other.segments <+: path.segments := by
  rw [startsWith, Bool.and_eq_true, beq_iff_eq, List.isPrefixOf_iff_prefix]

theorem startsWith_refl (path : Path) : path.startsWith path = true :=
  startsWith_iff.mpr ⟨rfl, List.prefix_refl _⟩

theorem startsWith_truncate (path : Path) (depth : Nat) :
    path.startsWith (path.truncate depth) = true :=
  startsWith_iff.mpr ⟨rfl, List.take_prefix _ _⟩

theorem truncate_of_startsWith {path other : Path} (h : path.startsWith other = true) :
    path.truncate other.depth = other := by
  obtain ⟨hentity, hprefix⟩ := startsWith_iff.mp h
  have htake : other.segments = path.segments.take other.depth :=
    List.prefix_iff_eq_take.mp hprefix
  rw [truncate, ← htake, hentity]

theorem depth_le_of_startsWith {path other : Path} (h : path.startsWith other = true) :
    other.depth ≤ path.depth :=
  (startsWith_iff.mp h).2.length_le

theorem startsWith_antisymm {path other : Path} (h : path.startsWith other = true)
    (k : other.startsWith path = true) : path = other := by
  obtain ⟨hentity, hprefix⟩ := startsWith_iff.mp h
  have hsegments := hprefix.eq_of_length_le (startsWith_iff.mp k).2.length_le
  cases path
  cases other
  simp only at hentity hsegments
  rw [hentity, hsegments]

theorem entity_of_startsWith {path other : Path} (h : path.startsWith other = true) :
    other.entity = path.entity :=
  (startsWith_iff.mp h).1.symm

theorem startsWith_of_child {path other : Path} {segment : Segment}
    (h : path.startsWith (other.child segment) = true) : path.startsWith other = true := by
  obtain ⟨he, hs⟩ := startsWith_iff.mp h
  exact startsWith_iff.mpr ⟨he, (List.prefix_append _ _).trans hs⟩

-- All that a value holds lies at or below its path.
theorem startsWith_of_mem_allBelow (path : Path) (value : Value) :
    ∀ other ∈ path.allBelow value, other.startsWith path = true := by
  induction path, value using allBelow.induct
    (motive_2 := fun path position items =>
      ∀ other ∈ path.allItems position items, other.startsWith path = true)
    (motive_3 := fun path members =>
      ∀ other ∈ path.allMembers members, other.startsWith path = true) with
  | case1 path members ih =>
      rw [allBelow]
      exact List.forall_mem_cons.mpr ⟨startsWith_refl path, ih⟩
  | case2 path items ih =>
      rw [allBelow]
      exact List.forall_mem_cons.mpr ⟨startsWith_refl path, ih⟩
  | case3 value path hobj harr =>
      rw [allBelow.eq_3 path value hobj harr]
      exact List.forall_mem_singleton.mpr (startsWith_refl path)
  | case4 path position other ho =>
      rw [allItems] at ho
      exact absurd ho List.not_mem_nil
  | case5 path position value rest ihvalue ihrest other ho =>
      rw [allItems, List.mem_append] at ho
      exact ho.elim (fun ho => startsWith_of_child (ihvalue other ho)) (ihrest other)
  | case6 path other ho =>
      rw [allMembers] at ho
      exact absurd ho List.not_mem_nil
  | case7 path name value rest ihvalue ihrest other ho =>
      rw [allMembers, List.mem_append] at ho
      exact ho.elim (fun ho => startsWith_of_child (ihvalue other ho)) (ihrest other)

theorem mem_allBelow_self (path : Path) (value : Value) : path ∈ path.allBelow value := by
  cases value <;> simp [allBelow]

theorem allBelow_subset_allMembers {path : Path} {members : List (String × Value)} {name : String}
    {inner : Value} (h : Value.member? members name = some inner) :
    (path.childKey name).allBelow inner ⊆ path.allMembers members := by
  induction members with
  | nil => cases h
  | cons member rest ih =>
      obtain ⟨other, value⟩ := member
      rw [allMembers]
      rw [Value.member?, OrderedMap.find?] at h
      split at h
      · next he =>
        cases h
        subst he
        exact List.subset_append_left _ _
      · exact List.Subset.trans (ih h) (List.subset_append_right _ _)

theorem allBelow_subset_allItems {path : Path} {items : List Value} {start position : Nat}
    {inner : Value} (h : items[position]? = some inner) :
    (path.childIndex (start + position)).allBelow inner ⊆ path.allItems start items := by
  induction items generalizing start position with
  | nil => cases h
  | cons value rest ih =>
      rw [allItems]
      cases position with
      | zero =>
          rw [List.getElem?_cons_zero] at h
          cases h
          exact List.subset_append_left _ _
      | succ position =>
          have hrest : (path.childIndex (start + 1 + position)).allBelow inner ⊆
              path.allItems (start + 1) rest := ih (List.getElem?_cons_succ.symm.trans h)
          rw [Nat.add_right_comm, Nat.add_assoc] at hrest
          exact List.Subset.trans hrest (List.subset_append_right _ _)

-- Paths that have the containers of each with them.
def Rooted (paths : List Path) : Prop :=
  ∀ path ∈ paths, ∀ above, path.parent? = some above → above ∈ paths

-- The same, up to a path that holds them all.
def RootedBelow (root : Path) (paths : List Path) : Prop :=
  ∀ path ∈ paths, ∀ above, path.parent? = some above → above = root ∨ above ∈ paths

-- A path at or below another one is that path, or its container is at or
-- below it as well.
def Enclosed (root : Path) (paths : List Path) : Prop :=
  ∀ path ∈ paths, ∀ above, path.parent? = some above → path = root ∨ above ∈ paths

theorem RootedBelow.nil (root : Path) : RootedBelow root [] :=
  fun _ h => absurd h List.not_mem_nil

theorem RootedBelow.cons {root : Path} {paths : List Path} (h : RootedBelow root paths) :
    Enclosed root (root :: paths) := by
  intro path hm above hp
  rw [List.mem_cons] at hm ⊢
  exact hm.imp_right fun hm => h path hm above hp

theorem Enclosed.append {root : Path} {segment : Segment} {paths others : List Path}
    (h : Enclosed (root.child segment) paths) (k : RootedBelow root others) :
    RootedBelow root (paths ++ others) := by
  intro path hm above hp
  rw [List.mem_append] at hm ⊢
  rcases hm with hm | hm
  · rcases h path hm above hp with rfl | ha
    · exact Or.inl (Option.some_inj.mp (hp.symm.trans (parent?_child root segment)))
    · exact Or.inr (Or.inl ha)
  · exact (k path hm above hp).imp_right Or.inr

theorem enclosed_allBelow (path : Path) (value : Value) :
    Enclosed path (path.allBelow value) := by
  induction path, value using allBelow.induct
    (motive_2 := fun path position items => RootedBelow path (path.allItems position items))
    (motive_3 := fun path members => RootedBelow path (path.allMembers members)) with
  | case1 path members ih =>
      rw [allBelow]
      exact ih.cons
  | case2 path items ih =>
      rw [allBelow]
      exact ih.cons
  | case3 value path hobj harr =>
      rw [allBelow.eq_3 path value hobj harr]
      exact (RootedBelow.nil path).cons
  | case4 path position =>
      rw [allItems]
      exact .nil path
  | case5 path position value rest ihvalue ihrest =>
      rw [allItems]
      exact ihvalue.append ihrest
  | case6 path =>
      rw [allMembers]
      exact .nil path
  | case7 path name value rest ihvalue ihrest =>
      rw [allMembers]
      exact ihvalue.append ihrest

-- All that an entity holds goes back to the entity.
theorem rooted_allBelow (name : String) (value : Value) :
    Rooted ((ofEntity name).allBelow value) := by
  intro path hm above hp
  rcases enclosed_allBelow (ofEntity name) value path hm above hp with rfl | ha
  · cases hp
  · exact ha

-- What a value holds below a path to a part of it. By induction on the steps,
-- each of which goes to a member or an item.
theorem allBelow_subset_of_get? {path : Path} {value inner : Value} {steps : List Segment}
    (hsteps : ∀ s ∈ steps, s.Canonical) (h : value.get? steps = some inner) :
    allBelow ⟨path.entity, path.segments ++ steps⟩ inner ⊆ path.allBelow value := by
  induction steps generalizing path value with
  | nil =>
      cases h
      rw [List.append_nil]
      exact List.Subset.refl _
  | cons segment rest ih =>
      obtain ⟨hsegment, hrest⟩ := List.forall_mem_cons.mp hsteps
      rw [Value.get?] at h
      split at h
      · next next hchild =>
        have hinner : allBelow ⟨(path.child segment).entity,
            (path.child segment).segments ++ rest⟩ inner ⊆
              (path.child segment).allBelow next := ih hrest h
        have hsub : allBelow ⟨path.entity, path.segments ++ segment :: rest⟩ inner ⊆
            (path.child segment).allBelow next := by
          rwa [child, List.append_assoc, List.singleton_append] at hinner
        cases value with
        | obj members =>
            rw [allBelow]
            refine List.Subset.trans hsub (List.Subset.trans ?_ (List.subset_cons_self _ _))
            have hmembers : (path.childKey segment.name).allBelow next ⊆
                path.allMembers members := allBelow_subset_allMembers hchild
            rwa [childKey, Segment.ofName_name hsegment] at hmembers
        | arr items =>
            cases segment with
            | key name => cases hchild
            | index position =>
                rw [allBelow]
                have hitems : (path.childIndex (0 + position)).allBelow next ⊆
                    path.allItems 0 items := allBelow_subset_allItems hchild
                rw [Nat.zero_add] at hitems
                exact List.Subset.trans hsub
                  (List.Subset.trans hitems (List.subset_cons_self _ _))
        | null => cases hchild
        | bool truth => cases hchild
        | num number => cases hchild
        | decimal negative digits exponent => cases hchild
        | str text => cases hchild
      · cases h

theorem allBelow_subset_of_lookup {path : Path} {root inner : Value}
    (hsteps : ∀ s ∈ path.segments, s.Canonical) (h : path.lookup root = some inner) :
    path.allBelow inner ⊆ (ofEntity path.entity).allBelow root := by
  have hsub : allBelow ⟨(ofEntity path.entity).entity,
      (ofEntity path.entity).segments ++ path.segments⟩ inner ⊆
        (ofEntity path.entity).allBelow root := allBelow_subset_of_get? hsteps h
  exact hsub

-- A canonical path that leads to a value of its entity is listed.
theorem mem_allBelow_of_lookup {path : Path} {root inner : Value} (hpath : path.Canonical)
    (h : path.lookup root = some inner) : path ∈ (ofEntity path.entity).allBelow root :=
  allBelow_subset_of_lookup hpath.steps h (mem_allBelow_self path inner)

-- Listed paths have all their containers listed.
theorem Rooted.ancestors {paths : List Path} (h : Rooted paths) {path : Path} (hp : path ∈ paths) :
    path.ancestors ⊆ paths := by
  induction hd : path.depth generalizing path with
  | zero =>
      have hnone : path.parent? = none := by
        cases hq : path.parent? with
        | none => rfl
        | some above =>
            have := depth_of_parent hq
            omega
      rw [ancestors_of_entity hnone]
      exact List.nil_subset _
  | succ depth ih =>
      cases hq : path.parent? with
      | none =>
          rw [ancestors_of_entity hq]
          exact List.nil_subset _
      | some above =>
          have habove := h path hp above hq
          rw [ancestors_of_parent hq]
          refine List.cons_subset.mpr ⟨habove, ih habove ?_⟩
          have := depth_of_parent hq
          omega

-- A path and its containers are what the path lies at or below.
theorem mem_cons_ancestors {path other : Path} :
    other ∈ path :: path.ancestors ↔ path.startsWith other = true := by
  rw [List.mem_cons, ancestors, List.mem_map]
  constructor
  · rintro (rfl | ⟨depth, _, rfl⟩)
    · exact startsWith_refl other
    · exact startsWith_truncate path depth
  · intro h
    have hother := truncate_of_startsWith h
    rcases Nat.lt_or_ge other.depth path.depth with hlt | hge
    · exact Or.inr ⟨other.depth, List.mem_reverse.mpr (List.mem_range.mpr hlt), hother⟩
    · refine Or.inl ?_
      rw [← hother, truncate, List.take_of_length_le hge]

-- The listed paths with all their containers.
def enclosing (paths : List Path) : List Path := paths.flatMap fun path => path :: path.ancestors

theorem mem_enclosing {paths : List Path} {other : Path} :
    other ∈ enclosing paths ↔ ∃ path ∈ paths, path.startsWith other = true := by
  simp only [enclosing, List.mem_flatMap, mem_cons_ancestors]

theorem subset_enclosing (paths : List Path) : paths ⊆ enclosing paths :=
  fun path hp => mem_enclosing.mpr ⟨path, hp, startsWith_refl path⟩

theorem rooted_enclosing (paths : List Path) : Rooted (enclosing paths) := by
  intro path hp above habove
  obtain ⟨root, hroot, hbelow⟩ := mem_enclosing.mp hp
  obtain ⟨segment, rfl⟩ := parent?_eq_some_iff.mp habove
  exact mem_enclosing.mpr ⟨root, hroot, startsWith_of_child hbelow⟩

end Recalc.Path

namespace Recalc.Tree

theorem startsWith_of_mem_pathsUnder {tree : Tree} {path other : Path}
    (h : other ∈ tree.pathsUnder path) : other.startsWith path = true := by
  unfold pathsUnder at h
  split at h
  · exact Path.startsWith_of_mem_allBelow path _ other h
  · exact absurd h List.not_mem_nil

-- A tree lists for an entity and below a path what belongs to the entity.
theorem allIn_entityPaths (tree : Tree) (name : String) :
    Path.AllIn name (tree.entityPaths name) := by
  unfold entityPaths
  split
  · exact Path.allIn_allBelow (.ofEntity name) _
  · exact fun _ hp => absurd hp List.not_mem_nil

theorem allIn_pathsUnder (tree : Tree) (path : Path) :
    Path.AllIn path.entity (tree.pathsUnder path) := by
  unfold pathsUnder
  split
  · exact Path.allIn_allBelow path _
  · exact fun _ hp => absurd hp List.not_mem_nil

end Recalc.Tree

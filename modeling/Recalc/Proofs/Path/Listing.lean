import Recalc.Proofs.Tree.Parts

namespace Recalc.Path

variable {path other : Path} {root value inner : Value} {segment : Segment}
  {part : Segment × Value}

theorem pushParts_eq (path : Path) (value : Value) (stack : List (Path × Value)) :
    path.pushParts value stack =
      (value.parts.map fun part => (path.child part.1, part.2)) ++ stack := by
  cases value with
  | obj members =>
      rw [pushParts, List.foldl_reverse, Value.parts, List.map_map]
      exact List.foldr_cons_eq_append
  | arr items =>
      rw [pushParts, List.foldl_reverse, Value.parts, List.mapIdx_eq_zipIdx_map, List.map_map]
      exact List.foldr_cons_eq_append
  | null => rfl
  | bool truth => rfl
  | num number => rfl
  | decimal negative digits exponent => rfl
  | str text => rfl

-- A value is listed by its own path and then part by part.
theorem allBelow_eq (path : Path) (value : Value) : path.allBelow value =
    path :: value.parts.flatMap fun part => (path.child part.1).allBelow part.2 := by
  have h : path.allBelow value ++ pending [] = path :: pending (path.pushParts value []) :=
    allBelow_append_pending
  rw [pushParts_eq, List.append_nil, pending, pending, List.flatMap_nil, List.append_nil] at h
  rw [h, List.flatMap_map]

-- What lies below one part of a value does not lie below another part.
theorem eq_of_startsWith_child {first second : Segment}
    (h : other.startsWith (path.child first) = true)
    (k : other.startsWith (path.child second) = true) : first = second := by
  obtain ⟨rest, hrest⟩ := (startsWith_iff.mp h).2
  obtain ⟨others, hothers⟩ := (startsWith_iff.mp k).2
  simp only [child, List.append_assoc] at hrest hothers
  have hsame := List.append_cancel_left (hrest.trans hothers.symm)
  exact (List.cons.inj hsame).1

theorem startsWith_trans {first second third : Path} (h : first.startsWith second = true)
    (k : second.startsWith third = true) : first.startsWith third = true := by
  obtain ⟨hentity, hsteps⟩ := startsWith_iff.mp h
  obtain ⟨kentity, ksteps⟩ := startsWith_iff.mp k
  exact startsWith_iff.mpr ⟨hentity.trans kentity, ksteps.trans hsteps⟩

-- A path does not lie below what it holds.
theorem not_startsWith_child (path : Path) (segment : Segment) :
    path.startsWith (path.child segment) = false := by
  refine Bool.eq_false_iff.mpr fun h => ?_
  have hle := (startsWith_iff.mp h).2.length_le
  simp only [child, List.length_append, List.length_singleton] at hle
  omega

theorem startsWith_of_isChildOf (h : path.isChildOf other = true) :
    path.startsWith other = true := by
  rw [isChildOf, Bool.and_eq_true] at h
  exact h.2

theorem startsWith_of_mem_child (h : other ∈ (path.child segment).allBelow inner) :
    other.startsWith (path.child segment) = true :=
  startsWith_of_mem_allBelow _ _ other h

theorem nodup_allBelow (h : value.Distinct) (path : Path) : (path.allBelow value).Nodup := by
  induction value using Value.induction generalizing path with
  | step value ih =>
      rw [allBelow_eq, List.nodup_cons, List.nodup_flatMap]
      refine ⟨fun hm => ?_, fun part hpart => ih part hpart (h.parts hpart) _, ?_⟩
      · obtain ⟨part, _, hm⟩ := List.mem_flatMap.mp hm
        have hstarts := startsWith_of_mem_child hm
        rw [not_startsWith_child] at hstarts
        cases hstarts
      · refine (List.pairwise_map.mp h.nodup_steps).imp fun hne => ?_
        intro other hfirst hsecond
        exact hne (eq_of_startsWith_child (startsWith_of_mem_child hfirst)
          (startsWith_of_mem_child hsecond))

-- What the other parts of a value hold does not lie below what one part holds.
theorem outside_of_part (h : value.Distinct) {front back : List (Segment × Value)}
    (hparts : value.parts = front ++ part :: back)
    (hstarts : other.startsWith (path.child part.1) = true) :
    ∀ second ∈ front ++ back, ∀ listed ∈ (path.child second.1).allBelow second.2,
      listed.startsWith other = false := by
  intro second hsecond listed hl
  refine Bool.eq_false_iff.mpr fun hbelow => ?_
  have hsame := eq_of_startsWith_child (startsWith_of_mem_child hl)
    (startsWith_trans hbelow hstarts)
  have hnodup := h.nodup_steps
  rw [hparts, List.map_append, List.map_cons, List.nodup_middle] at hnodup
  refine (List.nodup_cons.mp hnodup).1 ?_
  rw [← List.map_append, ← hsame]
  exact List.mem_map_of_mem hsecond

-- A path in a listing, with the steps that lead to it, the value that they lead
-- to, and the listing around all that the path holds.
structure Within (path : Path) (value : Value) (other : Path) (steps : List Segment)
    (inner : Value) (before after : List Path) : Prop where
  eq : other = ⟨path.entity, path.segments ++ steps⟩
  get : value.get? steps = some inner
  split : path.allBelow value = before ++ other.allBelow inner ++ after
  outside : ∀ listed ∈ before ++ after, listed.startsWith other = false

-- By induction on the value: what lies below the path is listed with the part
-- that the path leads into, and of the other parts nothing lies there.
theorem exists_within (h : value.Distinct) (hm : other ∈ path.allBelow value) :
    ∃ steps inner before after, Within path value other steps inner before after := by
  induction value using Value.induction generalizing path with
  | step value ih =>
      have hlisted := hm
      rw [allBelow_eq] at hlisted
      rcases List.mem_cons.mp hlisted with rfl | hlisted
      · exact ⟨[], value, [], [], by rw [List.append_nil], rfl, by simp, by simp⟩
      · obtain ⟨part, hpart, hlisted⟩ := List.mem_flatMap.mp hlisted
        obtain ⟨steps, inner, before, after, heq, hget, hsplit, houtside⟩ :=
          ih part hpart (h.parts hpart) hlisted
        obtain ⟨front, back, hparts⟩ := List.append_of_mem hpart
        have hstarts := startsWith_of_mem_child hlisted
        have hapart := outside_of_part h hparts hstarts
        refine ⟨part.1 :: steps, inner,
          path :: front.flatMap (fun part => (path.child part.1).allBelow part.2) ++ before,
          after ++ back.flatMap (fun part => (path.child part.1).allBelow part.2), ?_, ?_, ?_, ?_⟩
        · rw [heq, child, List.append_assoc, List.singleton_append]
        · exact Value.get?_cons.mpr ⟨part.2, h.child?_of_mem_parts hpart, hget⟩
        · rw [allBelow_eq, hparts, List.flatMap_append, List.flatMap_cons, hsplit]
          simp
        · intro listed hl
          simp only [List.cons_append, List.mem_cons, List.mem_append, List.mem_flatMap] at hl
          rcases hl with rfl | (⟨second, hsecond, hl⟩ | hl) | hl | ⟨second, hsecond, hl⟩
          · refine Bool.eq_false_iff.mpr fun hbelow => ?_
            have hroot := startsWith_trans hbelow hstarts
            rw [not_startsWith_child] at hroot
            cases hroot
          · exact hapart second (List.mem_append_left _ hsecond) listed hl
          · exact houtside listed (List.mem_append_left _ hl)
          · exact houtside listed (List.mem_append_right _ hl)
          · exact hapart second (List.mem_append_right _ hsecond) listed hl

-- All that lies below a listed path stands right behind it.
theorem contiguous_allBelow (h : value.Distinct) (hm : other ∈ path.allBelow value) :
    ∃ before inside after, path.allBelow value = before ++ other :: (inside ++ after) ∧
      (∀ listed ∈ inside, listed.startsWith other = true) ∧
        ∀ listed ∈ before ++ after, listed.startsWith other = false := by
  obtain ⟨steps, inner, before, after, hwithin⟩ := exists_within h hm
  have hlisting := allBelow_eq other inner
  refine ⟨before, inner.parts.flatMap fun part => (other.child part.1).allBelow part.2, after,
    ?_, fun listed hl => ?_, hwithin.outside⟩
  · rw [hwithin.split, hlisting, List.append_assoc, List.cons_append]
  · refine startsWith_of_mem_allBelow other inner listed ?_
    rw [hlisting]
    exact List.mem_cons_of_mem _ hl

theorem exists_parent (hstarts : other.startsWith path = true) (hne : other ≠ path) :
    ∃ above, other.parent? = some above := by
  obtain ⟨hentity, steps, hsegments⟩ := startsWith_iff.mp hstarts
  obtain rfl : other = ⟨path.entity, path.segments ++ steps⟩ := by rw [hsegments, ← hentity]
  rcases List.eq_nil_or_concat steps with rfl | ⟨front, segment, rfl⟩
  · exact absurd (by rw [List.append_nil]) hne
  · refine ⟨⟨path.entity, path.segments ++ front⟩, parent?_eq_some_iff.mpr ⟨segment, ?_⟩⟩
    rw [child, List.concat_eq_append, List.append_assoc]

-- Other than the path of the value, what is listed stands behind its parent,
-- among all that lies below the parent.
theorem behind_parent_allBelow (h : value.Distinct) (hm : other ∈ path.allBelow value)
    (hne : other ≠ path) : ∃ above front middle back, other.parent? = some above ∧
      path.allBelow value = front ++ above :: (middle ++ other :: back) := by
  obtain ⟨above, hparent⟩ := exists_parent (startsWith_of_mem_allBelow path value other hm) hne
  have habove := (enclosed_allBelow path value other hm above hparent).resolve_left hne
  obtain ⟨before, inside, after, hsplit, _, houtside⟩ := contiguous_allBelow h habove
  have hbelow : other.startsWith above = true :=
    startsWith_of_isChildOf (isChildOf_iff.mpr hparent)
  have hinside : other ∈ inside := by
    rw [hsplit, List.mem_append, List.mem_cons, List.mem_append] at hm
    rcases hm with hm | rfl | hm | hm
    · rw [houtside other (List.mem_append_left _ hm)] at hbelow
      cases hbelow
    · have := depth_of_parent hparent
      omega
    · exact hm
    · rw [houtside other (List.mem_append_right _ hm)] at hbelow
      cases hbelow
  obtain ⟨middle, back, rfl⟩ := List.append_of_mem hinside
  exact ⟨above, before, middle, back ++ after, hparent, by rw [hsplit]; simp⟩

-- Of what a value holds, the parts stand one step below its path.
theorem filter_isChildOf_allBelow (path : Path) (value : Value) :
    (path.allBelow value).filter (·.isChildOf path) =
      value.parts.map fun part => path.child part.1 := by
  have hpart : ∀ part : Segment × Value,
      ((path.child part.1).allBelow part.2).filter (·.isChildOf path) = [path.child part.1] := by
    intro part
    have hfirst : (path.child part.1).isChildOf path = true :=
      isChildOf_iff.mpr (parent?_child path part.1)
    rw [allBelow_eq, List.filter_cons, if_pos hfirst, List.cons_inj_right, List.filter_eq_nil_iff]
    intro other hm hchild
    obtain ⟨second, _, hm⟩ := List.mem_flatMap.mp hm
    have hle := (startsWith_iff.mp (startsWith_of_mem_child hm)).2.length_le
    have hdepth := depth_of_parent (isChildOf_iff.mp hchild)
    simp only [child, depth, List.length_append, List.length_singleton] at hle hdepth
    omega
  have hself : path.isChildOf path = false := by simp [isChildOf]
  rw [allBelow_eq, List.filter_cons_of_neg (by simp [hself]), List.filter_flatMap,
    List.map_eq_flatMap]
  exact List.flatMap_congr fun part _ => hpart part

-- What stands one step below a listed path are the parts of its value.
theorem Within.filter {steps : List Segment} {before after : List Path}
    (hwithin : Within path value other steps inner before after) :
    (path.allBelow value).filter (·.isChildOf other) =
      inner.parts.map fun part => other.child part.1 := by
  have hnone : ∀ paths : List Path, (∀ listed ∈ paths, listed.startsWith other = false) →
      paths.filter (·.isChildOf other) = [] := by
    intro paths houtside
    refine List.filter_eq_nil_iff.mpr fun listed hl hchild => ?_
    have hbelow := startsWith_of_isChildOf hchild
    rw [houtside listed hl] at hbelow
    cases hbelow
  have houtside := List.forall_mem_append.mp hwithin.outside
  rw [hwithin.split, List.filter_append, List.filter_append, hnone before houtside.1,
    hnone after houtside.2, filter_isChildOf_allBelow, List.nil_append, List.append_nil]

-- The listing of all ways into a value that lie below a path. Of the steps that
-- go by one name, the canonical one stands for all: a position, if the name
-- spells a machine word, and the name itself otherwise.
structure Lists (root : Value) (path : Path) (paths : List Path) : Prop where
  nodup : paths.Nodup
  below : ∀ other ∈ paths, other.startsWith path = true
  mem_iff : ∀ other : Path, other.startsWith path = true →
    (∀ segment ∈ other.segments, segment.Canonical) →
      (other ∈ paths ↔ (other.lookup root).isSome = true)
  behind_parent : ∀ other ∈ paths, other ≠ path → ∃ above front middle back,
    other.parent? = some above ∧ paths = front ++ above :: (middle ++ other :: back)
  contiguous : ∀ other ∈ paths, ∃ before inside after,
    paths = before ++ other :: (inside ++ after) ∧
      (∀ listed ∈ inside, listed.startsWith other = true) ∧
      ∀ listed ∈ before ++ after, listed.startsWith other = false
  in_order : ∀ other ∈ paths, ∃ inner, other.lookup root = some inner ∧
    paths.filter (·.isChildOf other) = inner.parts.map fun part => other.child part.1

section Lookup

variable (h : value.Distinct) (hroot : path.lookup root = some value)

include hroot

theorem lookup_below (steps : List Segment) :
    lookup ⟨path.entity, path.segments ++ steps⟩ root = value.get? steps :=
  Value.get?_append hroot steps

include h

theorem mem_allBelow_iff (hother : other.startsWith path = true)
    (hsteps : ∀ segment ∈ other.segments, segment.Canonical) :
    other ∈ path.allBelow value ↔ (other.lookup root).isSome = true := by
  constructor
  · intro hm
    obtain ⟨steps, inner, _, _, hwithin⟩ := exists_within h hm
    rw [hwithin.eq, lookup_below hroot, hwithin.get]
    rfl
  · intro hsome
    obtain ⟨inner, hinner⟩ := Option.isSome_iff_exists.mp hsome
    obtain ⟨hentity, steps, hsegments⟩ := startsWith_iff.mp hother
    obtain rfl : other = ⟨path.entity, path.segments ++ steps⟩ := by
      rw [hsegments, ← hentity]
    rw [lookup_below hroot] at hinner
    exact allBelow_subset_of_get? (fun segment hs => hsteps segment (List.mem_append_right _ hs))
      hinner (mem_allBelow_self _ inner)

theorem lists_of_lookup : Lists root path (path.allBelow value) where
  nodup := nodup_allBelow h path
  below := startsWith_of_mem_allBelow path value
  mem_iff _ := mem_allBelow_iff h hroot
  behind_parent _ := behind_parent_allBelow h
  contiguous _ := contiguous_allBelow h
  in_order := by
    intro other hm
    obtain ⟨steps, inner, before, after, hwithin⟩ := exists_within h hm
    refine ⟨inner, ?_, hwithin.filter⟩
    rw [hwithin.eq, lookup_below hroot, hwithin.get]

-- A listing by a stack is the same one.
theorem lists_listStack : Lists root path (listStack [(path, value)] []) := by
  rw [listStack_singleton]
  exact lists_of_lookup h hroot

end Lookup

-- The listing of an entity, and of what lies below a path that leads to a value.
theorem lists_allBelow (h : root.Distinct) :
    (∀ name, Lists root (ofEntity name) ((ofEntity name).allBelow root)) ∧
      ∀ (path : Path) (value : Value), path.lookup root = some value →
        Lists root path (path.allBelow value) :=
  ⟨fun _ => lists_of_lookup h rfl, fun _ _ hpath => lists_of_lookup (h.get? hpath) hpath⟩

-- Members whose names spell positions, too large ones and ones with a zero in
-- front among them, next to items.
theorem lists_digit_names :
    let rows := Value.arr [.obj [("01", .null), ("1", .bool true)], .arr []]
    let root := Value.obj [("7", rows), ("18446744073709551616", .num 2), ("", .str "x")]
    root.Distinct ∧ lookup ⟨"Table", [.index 7]⟩ root = some rows ∧
      Lists root (ofEntity "Table") ((ofEntity "Table").allBelow root) ∧
      Lists root ⟨"Table", [.index 7]⟩ (allBelow ⟨"Table", [.index 7]⟩ rows) := by
  intro rows root
  have hroot : root.Distinct := by
    simp [root, rows, Value.Distinct, Value.DistinctMembers, Value.DistinctItems]
  have hrows : lookup ⟨"Table", [.index 7]⟩ root = some rows := rfl
  have hlists := lists_allBelow hroot
  exact ⟨hroot, hrows, hlists.1 "Table", hlists.2 _ rows hrows⟩

end Recalc.Path

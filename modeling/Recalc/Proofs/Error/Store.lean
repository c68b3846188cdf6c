import Recalc.Error.Store
import Recalc.Proofs.Ordered.Map

namespace Recalc.ErrorStore

variable {store : ErrorStore} {key k : String} {errors : List DependencyError} {path : Path}
  {cycles : List (List Path)}

theorem atKey_put :
    (store.put key errors).atKey k = if k = key then errors else store.atKey k := by
  unfold put atKey
  cases errors with
  | nil =>
      rw [if_pos List.isEmpty_nil, OrderedMap.get?_erase]
      split <;> rfl
  | cons error rest =>
      rw [if_neg (by simp), OrderedMap.get?_insert]
      split <;> rfl

theorem atKey_append :
    (store.append key errors).atKey k =
      if k = key then store.atKey k ++ errors else store.atKey k := by
  unfold append
  cases errors with
  | nil => simp
  | cons error rest =>
      rw [if_neg (by simp), atKey, OrderedMap.get?_insert]
      split
      · next hk => rw [hk]; rfl
      · rfl

theorem atKey_retain (keep : DependencyError → Bool) :
    (store.retain keep).atKey k = (store.atKey k).filter keep := by
  rw [atKey, retain, OrderedMap.get?_filter, OrderedMap.get?_mapValues, atKey]
  cases store.table.get? k with
  | none => rfl
  | some found =>
      rw [Option.map_some, Option.filter_some]
      split
      · rfl
      · next he =>
        rw [Bool.not_eq_true, Bool.not_eq_false', List.isEmpty_iff] at he
        simp [he]

theorem atKey_retainAt (keep : DependencyError → Bool) :
    (store.retainAt key keep).atKey k =
      if k = key then (store.atKey k).filter keep else store.atKey k := by
  rw [retainAt, atKey_put]
  split
  · next hk => rw [hk]
  · rfl

theorem atKey_replaceExtraction :
    (store.replaceExtraction path errors).atKey k =
      if k = path.render then
        (store.atKey k).filter (fun error => !error.isExtraction) ++ errors
      else store.atKey k := by
  rw [replaceExtraction, atKey_append, atKey_retainAt]
  split <;> rfl

theorem atKey_recordEvaluation {messages : List String} :
    (store.recordEvaluation path messages).atKey k =
      if k = path.render then
        (store.atKey k).filter (fun error => !decide (error.kind = .evaluation)) ++
          messages.map (.evaluation path.render ·)
      else store.atKey k := by
  rw [recordEvaluation, atKey_append, atKey_retainAt]
  split <;> rfl

theorem atKey_flagUnresolved {reference : Path} :
    (store.flagUnresolved path reference).atKey k =
      if k = path.render ∧ .unresolvedReference path.render reference.render ∉ store.atKey k then
        store.atKey k ++ [.unresolvedReference path.render reference.render]
      else store.atKey k := by
  unfold flagUnresolved
  dsimp only
  by_cases hm : .unresolvedReference path.render reference.render ∈ store.atPath path
  · rw [if_pos hm, if_neg]
    rintro ⟨rfl, hnew⟩
    exact hnew hm
  · rw [if_neg hm, atKey_append]
    by_cases hk : k = path.render
    · subst hk
      rw [if_pos rfl, if_pos ⟨rfl, hm⟩]
    · rw [if_neg hk, if_neg fun h => hk h.1]

theorem atKey_clearPath :
    (store.clearPath path).atKey k = if k = path.render then [] else store.atKey k := by
  rw [atKey, clearPath, OrderedMap.get?_erase]
  split <;> rfl

theorem atKey_foldl_clearPath {paths : List Path} : (paths.foldl clearPath store).atKey k =
    if ∃ path ∈ paths, k = path.render then [] else store.atKey k := by
  induction paths generalizing store with
  | nil => simp
  | cons path rest ih =>
      rw [List.foldl_cons, ih, atKey_clearPath]
      by_cases hk : k = path.render
      · simp [hk]
      · simp [hk]

-- Errors that are not kept may be added at will.
theorem filter_flagUnresolved {reference : Path} {keep : DependencyError → Bool}
    (h : keep (.unresolvedReference path.render reference.render) = false) :
    ((store.flagUnresolved path reference).atKey k).filter keep = (store.atKey k).filter keep := by
  unfold flagUnresolved
  dsimp only
  split
  · rfl
  · rw [atKey_append]
    split
    · rw [List.filter_append, List.filter_cons_of_neg (by simp [h]), List.filter_nil,
        List.append_nil]
    · rfl

theorem mem_atKey_flagUnresolved {reference : Path} {error : DependencyError}
    (h : error ∈ store.atKey k) : error ∈ (store.flagUnresolved path reference).atKey k := by
  unfold flagUnresolved
  dsimp only
  split
  · exact h
  · rw [atKey_append]
    split
    · exact List.mem_append_left _ h
    · exact h

theorem mem_atPath_flagUnresolved (store : ErrorStore) (path reference : Path) :
    .unresolvedReference path.render reference.render ∈
      (store.flagUnresolved path reference).atPath path := by
  unfold flagUnresolved
  dsimp only
  split
  · assumption
  · rw [atPath, atKey_append, if_pos rfl]
    exact List.mem_append_right _ List.mem_cons_self

-- What one step adds and no step takes away is there in the end.
theorem mem_atKey_foldl {α : Type} {step : ErrorStore → α → ErrorStore} {list : List α} {a : α}
    {error : DependencyError}
    (hkeep : ∀ store a, error ∈ atKey store k → error ∈ (step store a).atKey k) (ha : a ∈ list)
    (hadd : ∀ store, error ∈ (step store a).atKey k) (store : ErrorStore) :
    error ∈ (list.foldl step store).atKey k := by
  obtain ⟨front, back, rfl⟩ := List.append_of_mem ha
  rw [List.foldl_append, List.foldl_cons]
  exact List.foldlRecOn back step (motive := fun now => error ∈ atKey now k) (hadd _)
    fun now hnow b _ => hkeep now b hnow

section Cycles

variable {cycle : List Path}

-- The errors that cycles raise at a key.
def cycleErrors (cycles : List (List Path)) (key : String) : List DependencyError :=
  cycles.flatMap fun cycle =>
    (cycle.filter fun member => decide (member.render = key)).map fun member =>
      .cyclicDependency member.render (cycle.map Path.render)

theorem atKey_foldl_append (members names : List String) :
    (members.foldl (fun store member => store.append member [.cyclicDependency member names])
        store).atKey k =
      store.atKey k ++ (members.filter fun member => decide (member = k)).map fun member =>
        .cyclicDependency member names := by
  induction members generalizing store with
  | nil => simp
  | cons member rest ih =>
      rw [List.foldl_cons, ih, atKey_append, List.filter_cons]
      by_cases hk : k = member
      · simp [hk]
      · simp [hk, Ne.symm hk]

theorem atKey_addCycle :
    (store.addCycle cycle).atKey k = store.atKey k ++ cycleErrors [cycle] k := by
  rw [addCycle, atKey_foldl_append, cycleErrors, List.flatMap_singleton, List.filter_map,
    List.map_map]
  rfl

theorem atKey_foldl_addCycle :
    (cycles.foldl addCycle store).atKey k = store.atKey k ++ cycleErrors cycles k := by
  induction cycles generalizing store with
  | nil => simp [cycleErrors]
  | cons cycle rest ih =>
      rw [List.foldl_cons, ih, atKey_addCycle, List.append_assoc]
      simp [cycleErrors]

theorem atKey_replaceCycles :
    (store.replaceCycles cycles).atKey k =
      (store.atKey k).filter (fun error => !isCycle error) ++ cycleErrors cycles k := by
  rw [replaceCycles, atKey_foldl_addCycle, atKey_retain]

theorem isCycle_of_mem_cycleErrors : ∀ error ∈ cycleErrors cycles k, isCycle error = true := by
  intro error he
  obtain ⟨cycle, _, he⟩ := List.mem_flatMap.mp he
  obtain ⟨member, _, rfl⟩ := List.mem_map.mp he
  rfl

theorem filter_render_of_not_mem {members : List Path} {member : Path} (hout : member ∉ members)
    (hinj : ∀ other ∈ members, other.render = member.render → other = member) :
    members.filter (fun other => decide (other.render = member.render)) = [] := by
  rw [List.filter_eq_nil_iff]
  intro other ho he
  rw [hinj other ho (of_decide_eq_true he)] at ho
  exact hout ho

-- A member of one cycle whose text is its own has the error of that cycle.
theorem cycleErrors_of_mem {member : Path} (hnodup : cycles.flatten.Nodup)
    (hinj : ∀ other ∈ cycles.flatten, other.render = member.render → other = member)
    (hc : cycle ∈ cycles) (hm : member ∈ cycle) :
    cycleErrors cycles member.render =
      [.cyclicDependency member.render (cycle.map Path.render)] := by
  obtain ⟨before, after, rfl⟩ := List.append_of_mem hc
  obtain ⟨left, right, rfl⟩ := List.append_of_mem hm
  simp only [List.flatten_append, List.flatten_cons, List.append_assoc, List.cons_append] at hnodup
  have hperm : (before.flatten ++ left ++ member :: (right ++ after.flatten)).Perm
      (member :: (before.flatten ++ left ++ (right ++ after.flatten))) := List.perm_middle
  obtain ⟨hout, _⟩ := List.nodup_cons.mp (hperm.nodup_iff.mp (by simpa using hnodup))
  simp only [List.mem_append, not_or, and_assoc] at hout
  obtain ⟨hbefore, hleft, hright, hafter⟩ := hout
  have hnil : ∀ members : List Path, member ∉ members →
      (∀ other ∈ members, other ∈ (before ++ (left ++ member :: right) :: after).flatten) →
        members.filter (fun other => decide (other.render = member.render)) = [] :=
    fun members ho hin => filter_render_of_not_mem ho fun other hm => hinj other (hin other hm)
  have hapart : ∀ cycles : List (List Path), member ∉ cycles.flatten →
      (∀ other ∈ cycles.flatten,
        other ∈ (before ++ (left ++ member :: right) :: after).flatten) →
        cycleErrors cycles member.render = [] := by
    intro cycles ho hin
    rw [cycleErrors, List.flatMap_eq_nil_iff]
    intro cycle hc
    rw [hnil cycle (fun hm => ho (List.mem_flatten.mpr ⟨cycle, hc, hm⟩)) fun other hm =>
      hin other (List.mem_flatten.mpr ⟨cycle, hc, hm⟩)]
    rfl
  have hsplit : cycleErrors (before ++ (left ++ member :: right) :: after) member.render =
      cycleErrors before member.render ++ (cycleErrors [left ++ member :: right] member.render ++
        cycleErrors after member.render) := by
    simp [cycleErrors]
  rw [hsplit, hapart before hbefore (by simp +contextual), hapart after hafter (by simp +contextual),
    List.nil_append, List.append_nil, cycleErrors, List.flatMap_singleton, List.filter_append,
    List.filter_cons, hnil left hleft (by simp +contextual), hnil right hright (by simp +contextual)]
  simp

-- The cycle errors at a key, in their order.
def cyclesAt (store : ErrorStore) (key : String) : List DependencyError :=
  (store.atKey key).filter isCycle

theorem cyclesAt_replaceCycles : (store.replaceCycles cycles).cyclesAt k = cycleErrors cycles k := by
  rw [cyclesAt, atKey_replaceCycles, List.filter_append, List.filter_filter,
    List.filter_eq_self.mpr isCycle_of_mem_cycleErrors]
  simp

theorem not_isCycle_of_isExtraction {error : DependencyError} (h : error.isExtraction = true) :
    isCycle error = false := by
  cases error <;> first | rfl | cases h

theorem isCycle_and_not_isExtraction (error : DependencyError) :
    (isCycle error && !error.isExtraction) = isCycle error := by
  cases error <;> rfl

theorem filter_isCycle_eq_nil (h : ∀ error ∈ errors, error.isExtraction = true) :
    errors.filter isCycle = [] :=
  List.filter_eq_nil_iff.mpr fun error he => by
    rw [not_isCycle_of_isExtraction (h error he)]
    exact Bool.false_ne_true

theorem cyclesAt_replaceExtraction (h : ∀ error ∈ errors, error.isExtraction = true) :
    (store.replaceExtraction path errors).cyclesAt k = store.cyclesAt k := by
  rw [cyclesAt, atKey_replaceExtraction, cyclesAt]
  split
  · rw [List.filter_append, filter_isCycle_eq_nil h, List.append_nil, List.filter_filter]
    simp only [isCycle_and_not_isExtraction]
  · rfl

theorem cyclesAt_flagUnresolved {reference : Path} :
    (store.flagUnresolved path reference).cyclesAt k = store.cyclesAt k := by
  unfold flagUnresolved
  dsimp only
  split
  · rfl
  · rw [cyclesAt, atKey_append, cyclesAt]
    split
    · rw [List.filter_append]
      simp [isCycle, DependencyError.kind]
    · rfl

theorem cyclesAt_recordEvaluation {messages : List String} :
    (store.recordEvaluation path messages).cyclesAt k = store.cyclesAt k := by
  rw [cyclesAt, atKey_recordEvaluation, cyclesAt]
  split
  · rw [List.filter_append, List.filter_filter]
    have hnew : (messages.map (DependencyError.evaluation path.render ·)).filter isCycle = [] :=
      List.filter_eq_nil_iff.mpr fun error he => by
        obtain ⟨_, _, rfl⟩ := List.mem_map.mp he
        exact Bool.false_ne_true
    rw [hnew, List.append_nil]
    congr 1
    funext error
    cases error <;> rfl
  · rfl

theorem cyclesAt_clearPath (h : store.cyclesAt path.render = []) :
    (store.clearPath path).cyclesAt k = store.cyclesAt k := by
  rw [cyclesAt, atKey_clearPath]
  split
  · next hk => rw [hk, h]; rfl
  · rfl

end Cycles

section Extractions

-- The errors at a key that reading bindings has raised.
def extractionsAt (store : ErrorStore) (key : String) : List DependencyError :=
  (store.atKey key).filter (·.isExtraction)

theorem extractionsAt_replaceExtraction (h : ∀ error ∈ errors, error.isExtraction = true) :
    (store.replaceExtraction path errors).extractionsAt k =
      if k = path.render then errors else store.extractionsAt k := by
  rw [extractionsAt, atKey_replaceExtraction, extractionsAt]
  split
  · rw [List.filter_append, List.filter_filter, List.filter_eq_self.mpr h]
    simp
  · rfl

theorem extractionsAt_replaceCycles :
    (store.replaceCycles cycles).extractionsAt k = store.extractionsAt k := by
  have hnone : (cycleErrors cycles k).filter (·.isExtraction) = [] :=
    List.filter_eq_nil_iff.mpr fun error he hx => by
      have hcycle := isCycle_of_mem_cycleErrors error he
      rw [not_isCycle_of_isExtraction hx] at hcycle
      cases hcycle
  rw [extractionsAt, atKey_replaceCycles, List.filter_append, hnone, List.append_nil,
    List.filter_filter, extractionsAt]
  refine List.filter_congr fun error _ => ?_
  cases error <;> rfl

end Extractions

section Naming

variable {error : DependencyError} {name : String} {reference : Path} {paths : List Path}

-- Whether some error says that a reference is unresolved.
def Names (store : ErrorStore) (name : String) : Prop :=
  ∃ key, ∃ error ∈ store.atKey key, namesReference name error = true

theorem mem_toList_iff : error ∈ store.toList ↔ ∃ key, error ∈ store.atKey key := by
  unfold toList OrderedMap.values atKey
  rw [List.mem_flatten]
  constructor
  · rintro ⟨errors, hm, he⟩
    obtain ⟨entry, hentry, rfl⟩ := List.mem_map.mp hm
    refine ⟨entry.1, ?_⟩
    rwa [OrderedMap.get?_eq_some_iff.mpr hentry]
  · rintro ⟨key, he⟩
    cases hget : store.table.get? key with
    | none =>
        rw [hget] at he
        exact absurd he List.not_mem_nil
    | some errors =>
        rw [hget] at he
        exact ⟨errors, List.mem_map.mpr ⟨_, OrderedMap.get?_eq_some_iff.mp hget, rfl⟩, he⟩

-- What is left when references are resolved.
def unnamed (paths : List Path) (error : DependencyError) : Bool :=
  paths.all fun path => !namesReference path.render error

theorem atKey_foldl_resolveReference :
    (paths.foldl resolveReference store).atKey key = (store.atKey key).filter (unnamed paths) := by
  induction paths generalizing store with
  | nil => exact (List.filter_eq_self.mpr fun _ _ => List.all_nil).symm
  | cons path rest ih =>
      rw [List.foldl_cons, ih, resolveReference, atKey_retain, List.filter_filter]
      refine List.filter_congr fun error _ => ?_
      rw [unnamed, unnamed, List.all_cons, Bool.and_comm]

theorem unnamed_congr {others : List Path} (h : ∀ path, path ∈ others ↔ path ∈ paths) :
    unnamed others = unnamed paths := by
  funext error
  rw [Bool.eq_iff_iff, unnamed, unnamed, List.all_eq_true, List.all_eq_true]
  simp only [h]

theorem not_names_empty : ¬(∅ : ErrorStore).Names name :=
  fun ⟨_, _, he, _⟩ => absurd he List.not_mem_nil

theorem names_retain {keep : DependencyError → Bool} (h : (store.retain keep).Names name) :
    ∃ key, ∃ error ∈ store.atKey key, keep error = true ∧ namesReference name error = true := by
  obtain ⟨key, error, he, hnames⟩ := h
  rw [atKey_retain] at he
  exact ⟨key, error, (List.mem_filter.mp he).1, (List.mem_filter.mp he).2, hnames⟩

theorem names_append (h : (store.append key errors).Names name) :
    store.Names name ∨ ∃ error ∈ errors, namesReference name error = true := by
  obtain ⟨k, error, he, hnames⟩ := h
  rw [atKey_append] at he
  split at he
  · rcases List.mem_append.mp he with he | he
    · exact Or.inl ⟨k, error, he, hnames⟩
    · exact Or.inr ⟨error, he, hnames⟩
  · exact Or.inl ⟨k, error, he, hnames⟩

theorem names_replaceExtraction (h : (store.replaceExtraction path errors).Names name) :
    store.Names name ∨ ∃ error ∈ errors, namesReference name error = true := by
  refine (names_append h).imp_left fun ⟨k, error, he, hnames⟩ => ⟨k, error, ?_, hnames⟩
  rw [atKey_retainAt] at he
  split at he
  · exact (List.mem_filter.mp he).1
  · exact he

theorem names_flagUnresolved (h : (store.flagUnresolved path reference).Names name) :
    store.Names name ∨ reference.render = name := by
  unfold flagUnresolved at h
  dsimp only at h
  split at h
  · exact Or.inl h
  · refine (names_append h).imp_right fun ⟨error, he, hnames⟩ => ?_
    rw [List.mem_singleton.mp he] at hnames
    exact of_decide_eq_true hnames

theorem names_clearPath (h : (store.clearPath path).Names name) : store.Names name := by
  obtain ⟨k, error, he, hnames⟩ := h
  rw [atKey_clearPath] at he
  split at he
  · exact absurd he List.not_mem_nil
  · exact ⟨k, error, he, hnames⟩

theorem names_foldl_clearPath (h : (paths.foldl clearPath store).Names name) :
    store.Names name := by
  induction paths generalizing store with
  | nil => exact h
  | cons path rest ih => exact names_clearPath (ih h)

-- What has been resolved is not named any more.
theorem names_foldl_resolveReference (h : (paths.foldl resolveReference store).Names name) :
    store.Names name ∧ ∀ path ∈ paths, path.render ≠ name := by
  induction paths generalizing store with
  | nil => exact ⟨h, fun path hp => absurd hp List.not_mem_nil⟩
  | cons path rest ih =>
      obtain ⟨hfirst, hrest⟩ := ih h
      obtain ⟨k, error, he, hkeep, hnames⟩ := names_retain hfirst
      refine ⟨⟨k, error, he, hnames⟩, List.forall_mem_cons.mpr ⟨?_, hrest⟩⟩
      rintro rfl
      rw [hnames] at hkeep
      cases hkeep

theorem names_replaceCycles (h : (store.replaceCycles cycles).Names name) : store.Names name := by
  obtain ⟨k, error, he, hnames⟩ := h
  rw [atKey_replaceCycles] at he
  rcases List.mem_append.mp he with he | he
  · exact ⟨k, error, (List.mem_filter.mp he).1, hnames⟩
  · obtain ⟨cycle, _, he⟩ := List.mem_flatMap.mp he
    obtain ⟨member, _, rfl⟩ := List.mem_map.mp he
    cases hnames

end Naming

end Recalc.ErrorStore

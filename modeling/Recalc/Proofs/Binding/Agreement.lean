import Recalc.Proofs.Binding.Extraction
import Recalc.Proofs.Path.Canonical

namespace Recalc

-- The relative paths that are read as a rule.
def EntityConfig.relatives (config : EntityConfig) : List String :=
  config.scannedPaths ++ config.internalDependencies.keys

structure EntityConfig.Spelled (config : EntityConfig) : Prop where
  relative : ∀ relative ∈ config.relatives, Path.Spelled relative

theorem Entity.reactive_congr {first second : Entity} (h : first.config = second.config) :
    first.reactive = second.reactive := by
  rw [reactive, reactive, kind, kind, h]

namespace Binding

variable {config : Config} {known : Path → Bool} {entity other : Entity} {name : String}
  {path : Path}

theorem mem_scannedPaths {config : EntityConfig} {relative : String} :
    relative ∈ config.scannedPaths ↔ config.isDynamic relative = true := by
  unfold EntityConfig.scannedPaths EntityConfig.isDynamic EntityConfig.scansTriggers
  cases config.kind.capabilities.form with
  | none => simp
  | some form =>
      cases config.kind.capabilities.scansTriggers <;> simp [OrderedSet.mem_toList]

-- A path of an entity is below a relative one if that is its own spelling.
theorem mem_map_ofRelative {relatives : List String}
    (h : ∀ relative ∈ relatives, Path.Spelled relative) (hne : name ≠ "")
    (hplain : ∀ c ∈ name.toList, Path.startsAccessor c = false) :
    path ∈ relatives.map (Path.ofRelative name) ↔ path.entity = name ∧ path.relative ∈ relatives := by
  rw [List.mem_map]
  constructor
  · rintro ⟨relative, hr, rfl⟩
    obtain ⟨_, hentity, hrelative⟩ := (h relative hr).ofRelative hne hplain
    exact ⟨hentity, by rwa [hrelative]⟩
  · rintro ⟨hentity, hr⟩
    obtain ⟨_, hname, hrelative⟩ := (h _ hr).ofRelative hne hplain
    exact ⟨path.relative, hr, Path.relative_inj (hname.trans hentity.symm) hrelative⟩

theorem foldl_scan (relatives : List String) (found : OrderedMap Path Dependencies) :
    relatives.foldl (scan config known name entity) found =
      (relatives.map (Path.ofRelative name)).foldl
        (fun found path => found.insert path (binding config known entity path)) found := by
  rw [List.foldl_map]
  rfl

-- Each derived path is dealt with once, so it keeps what was found before.
theorem get?_foldl_deriveProperty {properties : List String}
    (h : ∀ property ∈ properties, Path.Spelled property) (hnodup : properties.Nodup)
    (hne : name ≠ "") (hplain : ∀ c ∈ name.toList, Path.startsAccessor c = false)
    (found : OrderedMap Path Dependencies) :
    (properties.foldl (deriveProperty name entity) found).get? path =
      if path.entity = name ∧ path.relative ∈ properties then
        some (addInternal entity path ((found.get? path).getD ∅))
      else found.get? path := by
  induction properties generalizing found with
  | nil => simp
  | cons property rest ih =>
      obtain ⟨hproperty, hrest⟩ := List.forall_mem_cons.mp h
      obtain ⟨hnew, hnodup⟩ := List.nodup_cons.mp hnodup
      obtain ⟨_, hentity, hrelative⟩ := hproperty.ofRelative hne hplain
      have hmem : path = Path.ofRelative name property ↔
          path.entity = name ∧ path.relative = property := by
        constructor
        · rintro rfl
          exact ⟨hentity, hrelative⟩
        · rintro ⟨he, hr⟩
          exact Path.relative_inj (he.trans hentity.symm) (hr.trans hrelative.symm)
      rw [List.foldl_cons, ih hrest hnodup, deriveProperty, OrderedMap.get?_insert]
      by_cases hp : path = Path.ofRelative name property
      · obtain ⟨he, hr⟩ := hmem.mp hp
        have hout : path.relative ∉ rest := hr ▸ hnew
        rw [if_neg (fun hin => hout hin.2), if_pos hp, ← hp,
          if_pos ⟨he, List.mem_cons.mpr (Or.inl hr)⟩]
      · rw [if_neg hp]
        by_cases he : path.entity = name
        · have hr : path.relative ≠ property := fun hr => hp (hmem.mpr ⟨he, hr⟩)
          simp [he, hr]
        · simp [he]

theorem internalTargets_of_not_mem (h : path.relative ∉ entity.config.internalDependencies.keys) :
    internalTargets entity path = [] := by
  unfold internalTargets
  cases hget : entity.config.internalDependencies.get? path.relative with
  | none => rfl
  | some targets => exact absurd (OrderedMap.mem_keys_iff.mpr ⟨targets, hget⟩) h

theorem addInternal_of_not_mem (h : path.relative ∉ entity.config.internalDependencies.keys)
    (found : Dependencies) : addInternal entity path found = found := by
  unfold addInternal
  rw [internalTargets_of_not_mem h]
  rfl

theorem reading_of_not_mem (h : path.relative ∉ entity.config.relatives) :
    reading config known entity path = ∅ := by
  obtain ⟨hscan, hderive⟩ := not_or.mp (mt List.mem_append.mpr h)
  rw [reading, addInternal_of_not_mem hderive, if_neg (mt mem_scannedPaths.mpr hscan)]

-- Reading an entity finds at each path what reading the path finds.
theorem get?_readings (hr : entity.reactive = true) (h : entity.config.Spelled) (hne : name ≠ "")
    (hplain : ∀ c ∈ name.toList, Path.startsAccessor c = false) :
    (readings config known name entity).get? path =
      if path.entity = name ∧ path.relative ∈ entity.config.relatives then
        some (reading config known entity path)
      else none := by
  have hscanned : ∀ relative ∈ entity.config.scannedPaths, Path.Spelled relative :=
    fun relative hm => h.relative relative (List.mem_append_left _ hm)
  have hderived : ∀ property ∈ entity.config.internalDependencies.keys, Path.Spelled property :=
    fun property hm => h.relative property (List.mem_append_right _ hm)
  rw [readings, if_pos hr, get?_foldl_deriveProperty hderived
    entity.config.internalDependencies.nodup hne hplain, foldl_scan, OrderedMap.get?_foldl_insert,
    OrderedMap.get?_empty]
  simp only [mem_map_ofRelative hscanned hne hplain, EntityConfig.relatives, List.mem_append,
    reading, ← mem_scannedPaths]
  by_cases he : path.entity = name
  · by_cases hs : path.relative ∈ entity.config.scannedPaths
    · by_cases hd : path.relative ∈ entity.config.internalDependencies.keys
      · simp [he, hs, hd]
      · simp [he, hs, hd, addInternal_of_not_mem hd]
    · by_cases hd : path.relative ∈ entity.config.internalDependencies.keys <;> simp [he, hs, hd]
  · simp [he]

theorem reactive_of_mem_readings (h : path ∈ (readings config known name entity).keys) :
    entity.reactive = true := by
  by_contra hr
  rw [readings, if_neg hr] at h
  exact absurd h List.not_mem_nil

-- Which paths are read depends on the configuration of the entity alone.
theorem keys_readings_congr {policy : Config} {other : Entity} {others : Path → Bool}
    (h : other.config = entity.config) :
    (readings policy others name other).keys = (readings config known name entity).keys := by
  unfold readings
  rw [Entity.reactive_congr h, h]
  split
  · refine List.foldl_rel
      (r := fun first second : OrderedMap Path Dependencies => first.keys = second.keys) ?_
      fun property _ first second he => OrderedMap.keys_insert_congr he
    exact List.foldl_rel
      (r := fun first second : OrderedMap Path Dependencies => first.keys = second.keys) rfl
      fun relative _ first second he => OrderedMap.keys_insert_congr he
  · rfl

section Single

variable {first second : Cache}

-- Reading an entity finds, at its configured paths and nowhere else, what
-- reading the path alone finds; its other paths read nothing.
theorem ofEntity_pathwise (hfirst : first.Sound) (hsecond : second.Sound)
    (hr : entity.reactive = true) (h : entity.config.Spelled) (hne : name ≠ "")
    (hplain : ∀ c ∈ name.toList, Path.startsAccessor c = false) :
    (∀ path found, (path, found) ∈ (ofEntity config known first name entity).1.entries ↔
      path.entity = name ∧ path.relative ∈ entity.config.relatives ∧
        (ofPath config known second entity path).1 = found) ∧
      ∀ path : Path, path.entity = name →
        path ∉ (ofEntity config known first name entity).1.keys →
        (ofPath config known second entity path).1 = ∅ := by
  have hreadings := (ofEntity_eq config known name entity hfirst).1
  have hreading : ∀ path, (ofPath config known second entity path).1 =
      reading config known entity path :=
    fun path => (ofPath_eq config known entity path hsecond).1
  have hentries : ∀ path found,
      (path, found) ∈ (ofEntity config known first name entity).1.entries ↔
        path.entity = name ∧ path.relative ∈ entity.config.relatives ∧
          (ofPath config known second entity path).1 = found := by
    intro path found
    rw [hreadings, hreading, ← OrderedMap.get?_eq_some_iff, get?_readings hr h hne hplain]
    split
    · next hconfigured => simp [hconfigured]
    · next hother =>
      simpa using fun hentity hrelative => absurd ⟨hentity, hrelative⟩ hother
  refine ⟨hentries, fun path hentity hmissing => ?_⟩
  rw [hreading]
  refine reading_of_not_mem fun hrelative => hmissing ?_
  exact List.mem_map.mpr ⟨_, (hentries path _).mpr ⟨hentity, hrelative, rfl⟩, rfl⟩

-- A property with a binding that is also derived, a handler, and a property
-- that is derived alone.
def chart : Entity :=
  ((((Entity.ofKind .widget (.obj [("data", .arr [.obj [("name", .str "{{ Api.data }}")]]),
    ("onClick", .str "{{ Api.run() }}")])).withBindings ["data[0].name"]).withTriggers
      ["onClick"]).withInternalDependency "data[0].name" ["seed"]).withInternalDependency
        "total" ["data", "total"]

theorem spelled_chart : chart.config.Spelled where
  relative relative hr := by
    have hrelatives : chart.config.relatives =
        ["data[0].name", "onClick", "data[0].name", "total"] := by decide +kernel
    have hname : Path.Spelled "data[0].name" :=
      ⟨⟨"Chart", [.key "data", .index 0, .key "name"]⟩, by decide +kernel⟩
    rw [hrelatives] at hr
    simp only [List.mem_cons, List.not_mem_nil, or_false] at hr
    rcases hr with rfl | rfl | rfl | rfl
    · exact hname
    · exact ⟨⟨"Chart", [.key "onClick"]⟩, by decide +kernel⟩
    · exact hname
    · exact ⟨⟨"Chart", [.key "total"]⟩, by decide +kernel⟩

-- The binding is read and derived in both ways, from a cache or not, and a
-- property that holds text but is not configured reads nothing.
theorem ofEntity_pathwise_chart :
    let known := fun key => decide (key = Path.parseLenient "Api.data")
    let first := Cache.ofCapacity 0
    let second := ((Cache.ofCapacity 4).parse .template "{{ Api.data }}").2
    let path := Path.parseLenient "Chart.data[0].name"
    let other := Path.parseLenient "Chart.data"
    first.Sound ∧ second.Sound ∧ chart.reactive = true ∧ chart.config.Spelled ∧ "Chart" ≠ "" ∧
      (∀ c ∈ "Chart".toList, Path.startsAccessor c = false) ∧
      (path, (ofPath .standard known second chart path).1) ∈
        (ofEntity .standard known first "Chart" chart).1.entries ∧
      (ofPath .standard known second chart path).1 =
        ⟨.ofList [Path.parseLenient "Api.data", Path.parseLenient "Chart.seed"], []⟩ ∧
      (ofPath .standard known second chart other).1 = ∅ := by
  intro known first second path other
  have hfirst : first.Sound := Cache.sound_ofCapacity 0
  have hsecond : second.Sound := (Cache.sound_ofCapacity 4).parse.2
  have hplain : ∀ c ∈ "Chart".toList, Path.startsAccessor c = false := by
    simp [Path.startsAccessor]
  obtain ⟨hentries, hothers⟩ := @ofEntity_pathwise .standard known chart "Chart" first second
    hfirst hsecond (by decide) spelled_chart (by decide) hplain
  refine ⟨hfirst, hsecond, by decide, spelled_chart, by decide, hplain, ?_, by decide +kernel, ?_⟩
  · exact (hentries path _).mpr ⟨by decide +kernel, by decide +kernel, rfl⟩
  · exact hothers other (by decide +kernel) (by decide +kernel)

end Single

section Text

theorem binding_of_text {form : Form} {text : String}
    (hform : entity.kind.capabilities.form = some form)
    (ht : path.lookup entity.value = some (.str text)) :
    binding config known entity path = resolve config known path (parse form text) := by
  unfold binding
  rw [hform, ht]

theorem binding_of_no_text (h : ∀ text, path.lookup entity.value ≠ some (.str text)) :
    binding config known entity path = ∅ := by
  unfold binding
  split
  · next text _ ht => exact absurd ht (h text)
  · rfl

theorem binding_of_no_form (h : entity.kind.capabilities.form = none) :
    binding config known entity path = ∅ := by
  unfold binding
  rw [h]

-- Of a value, reading a path sees the text at the path.
theorem reading_congr {other : Entity} (h : other.config = entity.config)
    (ht : entity.config.isDynamic path.relative = true → ∀ text,
      path.lookup other.value = some (.str text) ↔ path.lookup entity.value = some (.str text)) :
    reading config known other path = reading config known entity path := by
  have hkind : other.kind = entity.kind := by rw [Entity.kind, h]; rfl
  have hbinding : entity.config.isDynamic path.relative = true →
      binding config known other path = binding config known entity path := by
    intro hd
    cases hform : entity.kind.capabilities.form with
    | none => rw [binding_of_no_form hform, binding_of_no_form (hkind ▸ hform)]
    | some form =>
        by_cases hsome : ∃ text, path.lookup entity.value = some (.str text)
        · obtain ⟨text, he⟩ := hsome
          rw [binding_of_text hform he, binding_of_text (hkind ▸ hform) ((ht hd text).mpr he)]
        · rw [not_exists] at hsome
          rw [binding_of_no_text hsome, binding_of_no_text fun text he =>
            hsome text ((ht hd text).mp he)]
  have hinternal : ∀ found, addInternal other path found = addInternal entity path found := by
    intro found
    unfold addInternal internalTargets
    rw [h]
  rw [reading, reading, hinternal, h]
  split
  · next hd => rw [hbinding hd]
  · rfl

end Text

end Binding

end Recalc

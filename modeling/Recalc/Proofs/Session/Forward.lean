import Recalc.Proofs.Session.Unresolved

namespace Recalc

namespace Batch

variable {config : Config} {former tree : Tree} {batch : Batch} {kind : Kind} {entity : Entity}
  {name : String} {path target : Path} {value : Option Value} {missing : Bool} {diff : Diff}
  {diffs : List Diff} {error : DependencyError}

-- An event by which a path is known again. Entities outside the graph bring
-- nothing back.
def Restores (tree : Tree) (path : Path) (diff : Diff) : Prop :=
  diff.event = .new ∧ tree.TakesPart diff.target.entity ∧ path ∈ tree.pathsUnder diff.target

-- A reader that comes before a missing path is back.
def Precedes (tree : Tree) (path : Path) (diffs : List Diff) : Prop :=
  ∃ mid reader rest, diffs = mid ++ reader :: rest ∧ reader.event ≠ .delete ∧
    ∀ diff ∈ mid ++ [reader], ¬Restores tree path diff

-- A deletion at or above a path, and after it a reader that comes before the
-- path is back.
def Interrupts (tree : Tree) (path : Path) (diffs : List Diff) : Prop :=
  ∃ front gone rest, diffs = front ++ gone :: rest ∧ gone.event = .delete ∧
    path.startsWith gone.target = true ∧ Precedes tree path rest

theorem Precedes.of_head (hreader : diff.event ≠ .delete) (hout : ¬Restores tree path diff) :
    Precedes tree path (diff :: diffs) :=
  ⟨[], diff, diffs, rfl, hreader, List.forall_mem_singleton.mpr hout⟩

theorem Precedes.cons (h : Precedes tree path diffs) (hout : ¬Restores tree path diff) :
    Precedes tree path (diff :: diffs) := by
  obtain ⟨mid, reader, rest, rfl, hreader, hmid⟩ := h
  exact ⟨diff :: mid, reader, rest, rfl, hreader, List.forall_mem_cons.mpr ⟨hout, hmid⟩⟩

theorem Interrupts.cons (h : Interrupts tree path diffs) (diff : Diff) :
    Interrupts tree path (diff :: diffs) := by
  obtain ⟨front, gone, rest, rfl, hgone⟩ := h
  exact ⟨diff :: front, gone, rest, rfl, hgone⟩

section Keys

theorem subset_foldl_registerKeys {keys : Keys} (h : path ∈ keys) (diffs : List Diff) :
    path ∈ diffs.foldl (registerKeys tree) keys := by
  refine List.foldlRecOn diffs _ (motive := fun keys : Keys => path ∈ keys) h
    fun keys hkeys diff _ => ?_
  unfold registerKeys
  split
  · dsimp only
    split
    · exact hkeys
    · exact Built.mem_addAll.mpr (Or.inl hkeys)
  · exact hkeys
  · exact hkeys

-- What an event brings is known from the start of the batch.
theorem mem_registerKeys_of_new {keys : Keys} (hevent : diff.event = .new)
    (h : path ∈ tree.pathsUnder diff.target) : path ∈ registerKeys tree keys diff := by
  have hthere : ∃ entity, tree.entity? diff.target.entity = some entity := by
    unfold Tree.pathsUnder at h
    split at h
    · next value hvalue =>
      obtain ⟨entity, he, _⟩ := Tree.entity?_of_get? hvalue
      exact ⟨entity, he⟩
    · exact absurd h List.not_mem_nil
  obtain ⟨entity, he⟩ := hthere
  unfold registerKeys
  rw [hevent]
  dsimp only
  rw [he]
  exact Built.mem_addAll.mpr (Or.inr
    (List.mem_append_left _ (List.mem_append_right _ h)))

theorem mem_foldl_registerKeys_of_new {keys : Keys} (hdiff : diff ∈ diffs)
    (hevent : diff.event = .new) (h : path ∈ tree.pathsUnder diff.target) :
    path ∈ diffs.foldl (registerKeys tree) keys := by
  obtain ⟨front, rest, rfl⟩ := List.append_of_mem hdiff
  rw [List.foldl_append, List.foldl_cons]
  exact subset_foldl_registerKeys (mem_registerKeys_of_new hevent h) rest

-- A deletion takes nothing but what lies at or below its path.
theorem startsWith_of_mem_gone (h : path ∈ gone former entity target) :
    path.startsWith target = true := by
  rcases List.mem_append.mp h with hp | hp
  · unfold removedPaths at hp
    split at hp
    · rw [List.mem_singleton.mp hp]
      exact Path.startsWith_refl target
    · exact Tree.startsWith_of_mem_pathsUnder hp
  · unfold removedSetters at hp
    split at hp
    · next hwhole =>
      rw [Path.eq_ofEntity hwhole]
      exact Path.startsWith_iff.mpr
        ⟨EntityConfig.allIn_setterPaths _ _ path hp, List.nil_prefix⟩
    · exact absurd hp List.not_mem_nil

-- Only a deletion at or above a known path makes it unknown.
theorem mem_keys_applyDiff_or_deleted (h : path ∈ batch.keys) :
    path ∈ (applyDiff config former tree batch diff).keys ∨
      diff.event = .delete ∧ path.startsWith diff.target = true := by
  unfold applyDiff
  dsimp only
  split
  · exact Or.inl h
  · next entity he =>
    split
    · cases hevent : diff.event <;> dsimp only
      · rw [keys_onNew, mem_keys_growNew_iff]
        exact Or.inl (Or.inl h)
      · by_cases hgone : path ∈ gone former entity diff.target
        · exact Or.inr ⟨rfl, startsWith_of_mem_gone hgone⟩
        · exact Or.inl (mem_keys_onDelete_iff.mpr ⟨h, hgone⟩)
      · exact Or.inl (mem_keys_onEdit_iff.mpr (Or.inl h))
    · cases hevent : diff.event <;> unfold onOutside <;> dsimp only
      · exact Or.inl h
      · by_cases hunder : path ∈ former.pathsUnder diff.target
        · exact Or.inr ⟨rfl, Tree.startsWith_of_mem_pathsUnder hunder⟩
        · exact Or.inl (Keys.mem_removeAll.mpr ⟨h, hunder⟩)
      · exact Or.inl h

theorem mem_keys_applyDiff_of_restores (h : Restores tree path diff) :
    path ∈ (applyDiff config former tree batch diff).keys := by
  obtain ⟨hevent, ⟨entity, he, hr⟩, hp⟩ := h
  unfold applyDiff
  rw [hevent]
  dsimp only
  rw [he]
  dsimp only
  rw [if_pos hr, keys_onNew, mem_keys_growNew_iff]
  refine Or.inr (Or.inl (List.mem_append_right _ ?_))
  rw [if_neg (mt List.isEmpty_iff.mp (List.ne_nil_of_mem hp))]
  exact hp

end Keys

section Raised

theorem raised_grow (entries : List (Path × NodeKind)) :
    (grow config kind entries batch).raised = batch.raised := by
  unfold grow recordAdded
  split <;> rfl

theorem raised_growNew :
    (growNew config tree entity target value batch).raised = batch.raised := by
  unfold growNew growSetters
  dsimp only
  split
  · rw [raised_grow, addKeys, raised_grow, addKeys]
  · rw [raised_grow, addKeys]

theorem raised_onDelete :
    (onDelete config former entity target batch).raised = batch.raised := by
  rw [onDelete_eq, field_foldl_forget _ _ _ Batch.raised fun _ _ => rfl]
  rfl

theorem mem_raised_foldl_applyReading {readings : List (Path × Binding.Dependencies)}
    (h : error ∈ (readings.foldl (applyReading config kind) batch).raised) :
    error ∈ batch.raised ∨ ∃ reading ∈ readings, error ∈ reading.2.errors := by
  induction readings generalizing batch with
  | nil => exact Or.inl h
  | cons reading rest ih =>
      rw [List.exists_mem_cons_iff, ← or_assoc]
      exact (ih h).imp_left List.mem_append.mp

variable (hpath : path.Plain) (hnames : ErrorStore.namesReference path.render error = true)

include hpath hnames

theorem not_mem_keys_of_namesUnknown {keys : Keys} {errors : List DependencyError}
    (h : Binding.NamesUnknown keys.contains errors) (herror : error ∈ errors) : path ∉ keys :=
  fun hk => by
    have hunknown := h error herror path hpath hnames
    rw [Std.TreeSet.contains_iff_mem.mpr hk] at hunknown
    cases hunknown

-- A reader names in its errors only what is not known.
theorem raised_readEntity (hs : batch.cache.Sound)
    (h : error ∈ (readEntity config name entity batch).raised) :
    error ∈ batch.raised ∨ path ∉ batch.keys := by
  unfold readEntity at h
  dsimp only at h
  rw [(Binding.ofEntity_eq config batch.keys.contains name entity hs).1] at h
  refine (mem_raised_foldl_applyReading h).imp_right fun ⟨reading, hr, herror⟩ => ?_
  exact not_mem_keys_of_namesUnknown hpath hnames (Binding.namesUnknown_readings reading hr) herror

theorem raised_readPath (hs : batch.cache.Sound)
    (h : error ∈ (readPath config entity target batch).raised) :
    error ∈ batch.raised ∨ path ∉ batch.keys := by
  unfold readPath at h
  dsimp only at h
  rw [(Binding.ofPath_eq config batch.keys.contains entity target hs).1] at h
  exact (List.mem_append.mp h).imp_right fun herror =>
    not_mem_keys_of_namesUnknown hpath hnames Binding.namesUnknown_reading herror

theorem raised_onNew (hs : batch.cache.Sound)
    (h : error ∈ (onNew config tree entity target value batch).raised) :
    error ∈ batch.raised ∨ path ∉ (onNew config tree entity target value batch).keys := by
  have hsound := (Proceeds.growNew config tree tree entity target value batch).cache hs
  have hraised : (growNew config tree entity target value batch).raised = batch.raised :=
    raised_growNew
  rw [keys_onNew, ← hraised]
  rw [onNew_eq, touch] at h
  dsimp only at h
  split at h
  · exact raised_readPath hpath hnames hsound h
  · exact raised_readEntity hpath hnames hsound h

theorem raised_onEdit (hs : batch.cache.Sound)
    (h : error ∈ (onEdit config former tree entity target value batch).raised) :
    error ∈ batch.raised ∨ path ∉ (onEdit config former tree entity target value batch).keys := by
  have hsound := sound_evictEdited former entity target (value.or (tree.get? target)) hs
  have hread : ∀ start : Batch, start.cache.Sound →
      error ∈ ((readPath config entity target start).touch target).raised →
        error ∈ start.raised ∨
          path ∉ ((readPath config entity target start).touch target).keys :=
    fun start hstart herror => raised_readPath hpath hnames hstart herror
  unfold onEdit at h ⊢
  dsimp only at h ⊢
  split
  · next htext =>
    rw [if_pos htext] at h
    split
    · next hthere =>
      rw [if_pos hthere] at h
      have hraised := hread _ hsound h
      exact hraised
    · next hmissing =>
      rw [if_neg hmissing] at h
      have hraised := hread _ hsound h
      exact hraised
  · next htext =>
    rw [if_neg htext] at h
    exact Or.inl h

-- An event that reports a path is no deletion and does not know the path.
theorem raised_applyDiff (hs : batch.cache.Sound)
    (h : error ∈ (applyDiff config former tree batch diff).raised) :
    error ∈ batch.raised ∨
      diff.event ≠ .delete ∧ path ∉ (applyDiff config former tree batch diff).keys := by
  unfold applyDiff at h ⊢
  dsimp only at h ⊢
  split
  · next hnone =>
    rw [hnone] at h
    exact Or.inl h
  · next entity he =>
    rw [he] at h
    dsimp only at h
    split
    · next hr =>
      rw [if_pos hr] at h
      cases hevent : diff.event <;> rw [hevent] at h <;> dsimp only at h ⊢
      · exact (raised_onNew hpath hnames hs h).imp_right fun hk => ⟨by decide, hk⟩
      · rw [raised_onDelete] at h
        exact Or.inl h
      · exact (raised_onEdit hpath hnames hs h).imp_right fun hk => ⟨by decide, hk⟩
    · next hr =>
      rw [if_neg hr] at h
      cases hevent : diff.event <;> rw [hevent] at h <;> exact Or.inl h

-- What a run of events reports was reported before, or a deletion comes in
-- between, or the path was missing from the start. By induction on the events.
theorem raised_foldl_applyDiff (hs : batch.cache.Sound)
    (h : error ∈ (diffs.foldl (applyDiff config former tree) batch).raised) :
    error ∈ batch.raised ∨ Interrupts tree path diffs ∨
      path ∉ batch.keys ∧ Precedes tree path diffs := by
  induction diffs generalizing batch with
  | nil => exact Or.inl h
  | cons diff rest ih =>
      have hkept : diff.event ≠ .delete → path ∈ batch.keys →
          path ∈ (applyDiff config former tree batch diff).keys := fun hevent hk =>
        (mem_keys_applyDiff_or_deleted hk).resolve_right fun hd => hevent hd.1
      have hback : path ∉ (applyDiff config former tree batch diff).keys →
          ¬Restores tree path diff := mt mem_keys_applyDiff_of_restores
      rcases ih ((Proceeds.applyDiff config former tree hs diff).cache hs) h with
        hr | hi | ⟨hk, hp⟩
      · refine (raised_applyDiff hpath hnames hs hr).imp_right fun ⟨hevent, hk⟩ => Or.inr ?_
        exact ⟨fun hold => hk (hkept hevent hold), .of_head hevent (hback hk)⟩
      · exact Or.inr (Or.inl (hi.cons diff))
      · by_cases hold : path ∈ batch.keys
        · obtain ⟨hevent, hbelow⟩ := (mem_keys_applyDiff_or_deleted hold).resolve_left hk
          exact Or.inr (Or.inl ⟨[], diff, rest, rfl, hevent, hbelow, hp⟩)
        · exact Or.inr (Or.inr ⟨hold, hp.cons (hback hk)⟩)

end Raised

end Batch

namespace Session

variable {config : Config} {tree : Tree} {session : Session} {diffs : List Diff} {diff : Diff}
  {path : Path} {error : DependencyError}

theorem errors_apply (session : Session) (tree : Tree) (diffs : List Diff) :
    (session.apply tree diffs).2.errors = (session.batchOf tree diffs).raised := by
  rw [apply]
  rfl

-- After any history and whatever the diffs are, a path that a batch brings is
-- reported as unresolved only by a reader that comes after a deletion at or
-- above the path, and before the path is back.
theorem interrupted_of_reported (config : Config) (cache : Binding.Cache) (first : Tree)
    (actions : List Action) (hdiff : diff ∈ diffs) (hevent : diff.event = .new)
    (hbrought : path ∈ tree.pathsUnder diff.target) :
    let session := (start config cache first).after actions
    ∀ error ∈ (session.apply tree diffs).2.errors,
      ErrorStore.namesReference path.render error = true → Batch.Interrupts tree path diffs := by
  intro session error herror hnames
  have hcoherent : session.Coherent := (coherent_start config cache first).after actions
  have hpath : path.Plain := Path.plain_of_entity_eq (Path.plain_parseLenient diff.path)
    (tree.allIn_pathsUnder _ path hbrought)
  rw [errors_apply] at herror
  rcases Batch.raised_foldl_applyDiff hpath hnames (by exact hcoherent.cache) herror with
    hr | hi | ⟨hk, _⟩
  · exact absurd hr List.not_mem_nil
  · exact hi
  · exact absurd (Batch.mem_foldl_registerKeys_of_new hdiff hevent hbrought) hk

section Interrupted

theorem target_text (event : Event) (value : Option Value) :
    (Diff.mk event "Label.text" value).target = ⟨"Label", [.key "text"]⟩ := by
  show Path.parseLenient "Label.text" = _
  decide +kernel

-- The action goes, the label is edited, and the action comes back.
def interruption (text : String) : List Diff :=
  [.delete "Api", .edit "Label.text" (.str text), .new "Api" api.value]

theorem replays_interruption (before after : String) :
    Replays (supplied after) (supplied before) (interruption after) := by
  refine .delete api.normalize rfl (by rw [Diff.delete, target_api]; rfl)
    (by rw [Diff.delete, target_api]; rfl) (.edit before after rfl ?_ ?_ rfl
      (.new api rfl ?_ ?_ (.done fun name => ?_)))
  all_goals simp only [Diff.delete, Diff.edit, Diff.new, target_api, target_text]
  · exact List.mem_cons_of_mem _ List.mem_cons_self
  · rfl
  · rfl
  · rfl
  · rfl

-- The label is said to read what the action holds in the end.
theorem reported_api_data :
    let text := "{{ Api.data }}"
    let data := Path.parseLenient "Api.data"
    let update := ((ofTree (supplied "") .standard).apply (supplied text) (interruption text)).2
    Replays (supplied text) (supplied "") (interruption text) ∧
      (∃ diff ∈ interruption text, diff.event = .new ∧
        data ∈ (supplied text).pathsUnder diff.target) ∧
      DependencyError.unresolvedReference "Label.text" data.render ∈ update.errors := by
  intro text data update
  exact ⟨replays_interruption "" text, by decide +kernel⟩

-- The deletion that lies between is at fault.
theorem interrupted_api_data :
    let text := "{{ Api.data }}"
    Batch.Interrupts (supplied text) ⟨"Api", [.key "data"]⟩ (interruption text) := by
  intro text
  have hreported : DependencyError.unresolvedReference "Label.text" "Api.data" ∈
      ((ofTree (supplied "") .standard).apply (supplied text) (interruption text)).2.errors := by
    decide +kernel
  have hnew : Diff.new "Api" api.value ∈ interruption text := by simp [interruption]
  exact interrupted_of_reported .standard (.ofCapacity Config.standard.cacheCapacity)
    (supplied "") [] hnew rfl (by decide +kernel) _ hreported (by decide +kernel)

end Interrupted

end Session

end Recalc

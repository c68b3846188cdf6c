import Mathlib.Data.List.DropRight
import Mathlib.Data.List.Induction
import Mathlib.Data.List.Nodup
import Recalc.Proofs.Error.Store

namespace Recalc.ErrorStore

def isEvaluation (error : DependencyError) : Bool := decide (error.kind = .evaluation)

-- The errors at a key that evaluation has raised.
def evaluationsAt (store : ErrorStore) (key : String) : List DependencyError :=
  (store.atKey key).filter isEvaluation

-- A change to the errors. What replaces the errors of reading a binding are
-- such errors.
inductive Operation
  | replaceExtraction (path : Path) (errors : List DependencyError)
    (raised : ∀ error ∈ errors, error.isExtraction = true)
  | replaceCycles (cycles : List (List Path))
  | resolveReference (reference : Path)
  | flagUnresolved (path reference : Path)
  | recordEvaluation (path : Path) (messages : List String)
  | clearPath (path : Path)
  | clear

def perform (store : ErrorStore) : Operation → ErrorStore
  | .replaceExtraction path errors _ => store.replaceExtraction path errors
  | .replaceCycles cycles => store.replaceCycles cycles
  | .resolveReference reference => store.resolveReference reference
  | .flagUnresolved path reference => store.flagUnresolved path reference
  | .recordEvaluation path messages => store.recordEvaluation path messages
  | .clearPath path => store.clearPath path
  | .clear => ∅

def run (operations : List Operation) : ErrorStore := operations.foldl perform ∅

namespace Operation

-- The errors of a key that a change sets whatever there was, by channel.
@[simp] def evaluations? (key : String) : Operation → Option (List DependencyError)
  | .recordEvaluation path messages =>
    if key = path.render then some (messages.map (.evaluation path.render ·)) else none
  | .clearPath path => if key = path.render then some [] else none
  | .clear => some []
  | _ => none

@[simp] def cycles? (key : String) : Operation → Option (List DependencyError)
  | .replaceCycles cycles => some (cycleErrors cycles key)
  | .clearPath path => if key = path.render then some [] else none
  | .clear => some []
  | _ => none

@[simp] def extractions? (key : String) : Operation → Option (List DependencyError)
  | .replaceExtraction path errors _ => if key = path.render then some errors else none
  | .clearPath path => if key = path.render then some [] else none
  | .clear => some []
  | _ => none

-- What a change that does not set the errors of reading makes of them.
@[simp] def revise (key : String) (errors : List DependencyError) : Operation → List DependencyError
  | .resolveReference reference =>
    errors.filter fun error => !namesReference reference.render error
  | .flagUnresolved path reference =>
    if key = path.render ∧ .unresolvedReference path.render reference.render ∉ errors then
      errors ++ [.unresolvedReference path.render reference.render]
    else errors
  | _ => errors

end Operation

variable {store : ErrorStore} {key : String} {error : DependencyError}
  {operations : List Operation} {operation : Operation}

theorem filter_filter_of_imp {keep channel : DependencyError → Bool}
    (h : ∀ error, channel error = true → keep error = true) (errors : List DependencyError) :
    (errors.filter keep).filter channel = errors.filter channel := by
  rw [List.filter_filter]
  refine List.filter_congr fun error _ => ?_
  cases hchannel : channel error with
  | true => rw [h error hchannel, Bool.true_and]
  | false => rw [Bool.false_and]

-- What one channel is replaced by is not seen in another one.
theorem filter_replaced {own channel : DependencyError → Bool} {added : List DependencyError}
    (hadded : ∀ error ∈ added, own error = true)
    (h : ∀ error, own error = true → channel error = false) (errors : List DependencyError) :
    (errors.filter (fun error => !own error) ++ added).filter channel = errors.filter channel := by
  have hnone : added.filter channel = [] :=
    List.filter_eq_nil_iff.mpr fun error he => by simp [h error (hadded error he)]
  rw [List.filter_append, hnone, List.append_nil, filter_filter_of_imp]
  intro error hchannel
  cases hown : own error with
  | true => rw [h error hown] at hchannel; cases hchannel
  | false => rfl

theorem filter_replaced_self {own : DependencyError → Bool} {added : List DependencyError}
    (hadded : ∀ error ∈ added, own error = true) (errors : List DependencyError) :
    (errors.filter (fun error => !own error) ++ added).filter own = added := by
  rw [List.filter_append, List.filter_eq_self.mpr hadded, List.filter_filter]
  simp

theorem not_isEvaluation_of_isExtraction (h : error.isExtraction = true) :
    isEvaluation error = false := by
  cases error <;> first | rfl | cases h

theorem not_isEvaluation_of_isCycle (h : isCycle error = true) : isEvaluation error = false := by
  cases error <;> first | rfl | cases h

theorem not_isExtraction_of_isEvaluation (h : isEvaluation error = true) :
    error.isExtraction = false := by
  cases error <;> first | rfl | cases h

theorem isEvaluation_of_mem_map {path : Path} {messages : List String} :
    ∀ error ∈ messages.map (DependencyError.evaluation path.render ·),
      isEvaluation error = true := by
  intro error he
  obtain ⟨_, _, rfl⟩ := List.mem_map.mp he
  rfl

section Channel

variable {channel : DependencyError → Bool} {path : Path}

theorem filter_clearPath : ((store.clearPath path).atKey key).filter channel =
    (if key = path.render then some [] else none).getD ((store.atKey key).filter channel) := by
  rw [atKey_clearPath]
  split <;> rfl

theorem filter_resolveReference {reference : Path}
    (h : ∀ error, channel error = true → error.kind ≠ .unresolvedReference) :
    ((store.resolveReference reference).atKey key).filter channel =
      (store.atKey key).filter channel := by
  rw [resolveReference, atKey_retain]
  refine filter_filter_of_imp (fun error hchannel => ?_) _
  cases error with
  | unresolvedReference path other => exact absurd rfl (h _ hchannel)
  | bindingSyntax path message => rfl
  | selfReference path => rfl
  | cyclicDependency path cycle => rfl
  | evaluation path message => rfl

end Channel

theorem evaluationsAt_perform (store : ErrorStore) (operation : Operation) :
    (store.perform operation).evaluationsAt key =
      (operation.evaluations? key).getD (store.evaluationsAt key) := by
  cases operation with
  | replaceExtraction path errors raised =>
      rw [perform, evaluationsAt, atKey_replaceExtraction]
      split
      · exact filter_replaced raised (fun _ => not_isEvaluation_of_isExtraction) _
      · rfl
  | replaceCycles cycles =>
      rw [perform, evaluationsAt, atKey_replaceCycles]
      exact filter_replaced isCycle_of_mem_cycleErrors (fun _ => not_isEvaluation_of_isCycle) _
  | resolveReference reference =>
      refine filter_resolveReference fun error he hkind => ?_
      rw [isEvaluation, hkind] at he
      cases he
  | flagUnresolved path reference => exact filter_flagUnresolved rfl
  | recordEvaluation path messages =>
      rw [perform, evaluationsAt, atKey_recordEvaluation, Operation.evaluations?]
      split
      · exact filter_replaced_self isEvaluation_of_mem_map _
      · rfl
  | clearPath path => exact filter_clearPath
  | clear => rfl

theorem cyclesAt_perform (store : ErrorStore) (operation : Operation) :
    (store.perform operation).cyclesAt key =
      (operation.cycles? key).getD (store.cyclesAt key) := by
  cases operation with
  | replaceExtraction path errors raised => exact cyclesAt_replaceExtraction raised
  | replaceCycles cycles => exact cyclesAt_replaceCycles
  | resolveReference reference =>
      refine filter_resolveReference fun error he hkind => ?_
      rw [isCycle, hkind] at he
      cases he
  | flagUnresolved path reference => exact cyclesAt_flagUnresolved
  | recordEvaluation path messages => exact cyclesAt_recordEvaluation
  | clearPath path => exact filter_clearPath
  | clear => rfl

theorem extractionsAt_perform (store : ErrorStore) (operation : Operation) :
    (store.perform operation).extractionsAt key =
      (operation.extractions? key).getD (operation.revise key (store.extractionsAt key)) := by
  cases operation with
  | replaceExtraction path errors raised =>
      rw [perform, extractionsAt_replaceExtraction raised, Operation.extractions?]
      split <;> rfl
  | replaceCycles cycles => exact extractionsAt_replaceCycles
  | resolveReference reference =>
      rw [perform, extractionsAt, resolveReference, atKey_retain, List.filter_filter]
      exact (List.filter_filter.trans (List.filter_congr fun _ _ => Bool.and_comm _ _)).symm
  | flagUnresolved path reference =>
      have hkind : (DependencyError.unresolvedReference path.render reference.render).isExtraction =
        true := rfl
      have hmem : DependencyError.unresolvedReference path.render reference.render ∈
          store.extractionsAt key ↔
            .unresolvedReference path.render reference.render ∈ store.atKey key := by
        rw [extractionsAt, List.mem_filter, and_iff_left hkind]
      dsimp only [perform, Operation.extractions?, Option.getD_none, Operation.revise]
      simp only [hmem]
      rw [extractionsAt, atKey_flagUnresolved]
      split
      · rw [List.filter_append, List.filter_cons_of_pos hkind, List.filter_nil]
        rfl
      · rfl
  | recordEvaluation path messages =>
      rw [perform, extractionsAt, atKey_recordEvaluation]
      split
      · exact filter_replaced isEvaluation_of_mem_map
          (fun _ => not_isExtraction_of_isEvaluation) _
      · rfl
  | clearPath path => exact filter_clearPath
  | clear => rfl

section Run

variable {settles : Operation → Option (List DependencyError)}

-- What the last of the changes that settle a channel has made of it.
def last (settles : Operation → Option (List DependencyError)) (operations : List Operation) :
    List DependencyError :=
  ((operations.filterMap settles).getLast?).getD []

-- The changes after the last one that settles a channel.
def since (settles : Operation → Option (List DependencyError)) (operations : List Operation) :
    List Operation :=
  operations.rtakeWhile fun operation => (settles operation).isNone

theorem run_concat (operations : List Operation) (operation : Operation) :
    run (operations ++ [operation]) = (run operations).perform operation := by
  rw [run, run, List.foldl_append, List.foldl_cons, List.foldl_nil]

theorem last_concat (operations : List Operation) (operation : Operation) :
    last settles (operations ++ [operation]) =
      (settles operation).getD (last settles operations) := by
  rw [last, List.filterMap_append, last]
  cases hsettles : settles operation with
  | some errors => simp [hsettles]
  | none => simp [hsettles]

-- A channel of which each change is known, after a run. By induction from the
-- last change, which settles the channel or comes after the one that does.
theorem channel_run (channel : ErrorStore → List DependencyError)
    (revise : List DependencyError → Operation → List DependencyError) (hempty : channel ∅ = [])
    (hstep : ∀ store operation, channel (perform store operation) =
      (settles operation).getD (revise (channel store) operation)) (operations : List Operation) :
    channel (run operations) =
      (since settles operations).foldl revise (last settles operations) := by
  induction operations using List.reverseRecOn with
  | nil => exact hempty
  | append_singleton operations operation ih =>
      rw [run_concat, hstep, last_concat, since]
      cases hsettles : settles operation with
      | some errors =>
          rw [List.rtakeWhile_concat_neg _ _ _ (by simp [hsettles])]
          rfl
      | none =>
          rw [List.rtakeWhile_concat_pos _ _ _ (by simp [hsettles]), List.foldl_append, ← since,
            Option.getD_none, Option.getD_none, ← ih]
          rfl

theorem evaluationsAt_run (operations : List Operation) :
    (run operations).evaluationsAt key = last (·.evaluations? key) operations := by
  rw [channel_run (·.evaluationsAt key) (fun errors _ => errors) rfl evaluationsAt_perform,
    List.foldl_fixed]

theorem cyclesAt_run (operations : List Operation) :
    (run operations).cyclesAt key = last (·.cycles? key) operations := by
  rw [channel_run (·.cyclesAt key) (fun errors _ => errors) rfl cyclesAt_perform, List.foldl_fixed]

theorem extractionsAt_run (operations : List Operation) :
    (run operations).extractionsAt key =
      (since (·.extractions? key) operations).foldl (Operation.revise key)
        (last (·.extractions? key) operations) :=
  channel_run (·.extractionsAt key) (Operation.revise key) rfl extractionsAt_perform operations

end Run

namespace Operation

-- Whether a change says that an error of the key has been raised in reading.
@[simp] def Records (key : String) (error : DependencyError) : Operation → Prop
  | .replaceExtraction path errors _ => key = path.render ∧ error ∈ errors
  | .flagUnresolved path reference =>
    key = path.render ∧ error = .unresolvedReference path.render reference.render
  | _ => False

def resolves (error : DependencyError) : Operation → Bool
  | .resolveReference reference => namesReference reference.render error
  | _ => false

-- Whether a change takes an error that reading has raised from the key.
@[simp] def Drops (key : String) (error : DependencyError) : Operation → Prop
  | .replaceExtraction path _ _ => key = path.render
  | .resolveReference reference => namesReference reference.render error = true
  | .clearPath path => key = path.render
  | .clear => True
  | _ => False

end Operation

theorem mem_extractionsAt_perform :
    error ∈ (store.perform operation).extractionsAt key ↔
      operation.Records key error ∨
        error ∈ store.extractionsAt key ∧ ¬operation.Drops key error := by
  rw [extractionsAt_perform]
  cases operation with
  | replaceExtraction path errors raised => by_cases hkey : key = path.render <;> simp [hkey]
  | replaceCycles cycles => simp
  | resolveReference reference => simp
  | flagUnresolved path reference =>
      simp only [Operation.extractions?, Operation.revise, Operation.Records, Operation.Drops,
        Option.getD_none, not_false_eq_true, and_true]
      by_cases hkey : key = path.render
      · by_cases hm : .unresolvedReference path.render reference.render ∈ store.extractionsAt key
        · rw [if_neg fun h => h.2 hm, or_iff_right_of_imp]
          rintro ⟨_, rfl⟩
          exact hm
        · rw [if_pos ⟨hkey, hm⟩, List.mem_append, List.mem_singleton, and_iff_right hkey, or_comm]
      · rw [if_neg fun h => hkey h.1, or_iff_right fun h => hkey h.1]
  | recordEvaluation path messages => simp
  | clearPath path => by_cases hkey : key = path.render <;> simp [hkey]
  | clear => simp

-- An error stays from the change that records it on, until a change drops it.
theorem mem_extractionsAt_run (operations : List Operation) :
    error ∈ (run operations).extractionsAt key ↔
      ∃ front operation back, operations = front ++ operation :: back ∧
        operation.Records key error ∧ ∀ later ∈ back, ¬later.Drops key error := by
  induction operations using List.reverseRecOn with
  | nil =>
      refine ⟨fun h => absurd h List.not_mem_nil, ?_⟩
      rintro ⟨front, operation, back, hsplit, _⟩
      simp at hsplit
  | append_singleton operations newest ih =>
      rw [run_concat, mem_extractionsAt_perform, ih]
      constructor
      · rintro (hrecords | ⟨⟨front, operation, back, rfl, hrecords, hkept⟩, hnewest⟩)
        · exact ⟨operations, newest, [], rfl, hrecords, fun _ h => absurd h List.not_mem_nil⟩
        · refine ⟨front, operation, back ++ [newest], by simp, hrecords, ?_⟩
          exact List.forall_mem_append.mpr ⟨hkept, List.forall_mem_singleton.mpr hnewest⟩
      · rintro ⟨front, operation, back, hsplit, hrecords, hkept⟩
        rcases List.eq_nil_or_concat back with rfl | ⟨back, later, rfl⟩
        · obtain ⟨_, hnewest⟩ := List.append_inj' hsplit rfl
          obtain rfl := List.singleton_inj.mp hnewest
          exact Or.inl hrecords
        · rw [List.concat_eq_append] at hsplit hkept
          rw [← List.cons_append, ← List.append_assoc] at hsplit
          obtain ⟨hfront, hnewest⟩ := List.append_inj' hsplit rfl
          obtain rfl := List.singleton_inj.mp hnewest
          obtain ⟨hback, hlater⟩ := List.forall_mem_append.mp hkept
          exact Or.inr ⟨⟨front, operation, back, hfront, hrecords, hback⟩,
            hlater newest (List.mem_singleton_self newest)⟩

-- Of errors that reading has raised, those that no later change resolves.
def standing (operations : List Operation) (errors : List DependencyError) :
    List DependencyError :=
  errors.filter fun error => !operations.any (·.resolves error)

theorem standing_concat (operations : List Operation) (errors : List DependencyError) :
    standing (operations ++ [operation]) errors =
      (standing operations errors).filter fun error => !operation.resolves error := by
  rw [standing, standing, List.filter_filter]
  refine List.filter_congr fun error _ => ?_
  rw [List.any_append, List.any_cons, List.any_nil, Bool.or_false, Bool.not_or, Bool.and_comm]

theorem standing_concat_of_not {errors : List DependencyError}
    (h : ∀ error, operation.resolves error = false) :
    standing (operations ++ [operation]) errors = standing operations errors := by
  rw [standing_concat, List.filter_eq_self]
  exact fun error _ => by rw [h error, Bool.not_false]

-- Later changes take away what is resolved and add what is flagged, each once.
theorem exists_flagged (operations : List Operation) (errors : List DependencyError) :
    ∃ flagged, operations.foldl (Operation.revise key) errors =
      standing operations errors ++ flagged ∧ flagged.Nodup ∧
        ∀ error ∈ flagged, error ∉ standing operations errors := by
  induction operations using List.reverseRecOn with
  | nil => exact ⟨[], by simp [standing], List.nodup_nil, fun _ h => absurd h List.not_mem_nil⟩
  | append_singleton operations newest ih =>
      obtain ⟨flagged, hfold, hnodup, hnew⟩ := ih
      rw [List.foldl_append, hfold, List.foldl_cons, List.foldl_nil]
      cases newest with
      | resolveReference reference =>
          refine ⟨flagged.filter fun error => !namesReference reference.render error, ?_,
            hnodup.filter _, fun error he hm => ?_⟩
          · rw [standing_concat, Operation.revise, List.filter_append]
            rfl
          · rw [standing_concat] at hm
            exact hnew error (List.mem_filter.mp he).1 (List.mem_filter.mp hm).1
      | flagUnresolved path reference =>
          rw [standing_concat_of_not fun _ => rfl, Operation.revise]
          split
          · next hflag =>
            rw [List.mem_append, not_or] at hflag
            refine ⟨flagged ++ [.unresolvedReference path.render reference.render],
              List.append_assoc .., ?_, List.forall_mem_append.mpr
                ⟨hnew, List.forall_mem_singleton.mpr hflag.2.1⟩⟩
            exact List.Nodup.append hnodup (List.nodup_singleton _)
              (List.disjoint_singleton.mpr hflag.2.2)
          · exact ⟨flagged, rfl, hnodup, hnew⟩
      | _ => exact ⟨flagged, by rw [standing_concat_of_not fun _ => rfl]; rfl, hnodup, by
          rwa [standing_concat_of_not fun _ => rfl]⟩

section Listed

-- No listed path is without errors.
def Filled (store : ErrorStore) : Prop :=
  ∀ key errors, store.table.get? key = some errors → errors ≠ []

variable {errors : List DependencyError}

theorem Filled.put (h : store.Filled) (key : String) (errors : List DependencyError) :
    (store.put key errors).Filled := by
  intro k found hfound
  unfold ErrorStore.put at hfound
  split at hfound
  · rw [OrderedMap.get?_erase] at hfound
    split at hfound
    · cases hfound
    · exact h k found hfound
  · next hempty =>
    rw [OrderedMap.get?_insert] at hfound
    split at hfound
    · cases hfound
      rwa [List.isEmpty_iff] at hempty
    · exact h k found hfound

theorem Filled.append (h : store.Filled) (key : String) (errors : List DependencyError) :
    (store.append key errors).Filled := by
  intro k found hfound
  unfold ErrorStore.append at hfound
  split at hfound
  · exact h k found hfound
  · next hempty =>
    rw [OrderedMap.get?_insert] at hfound
    split at hfound
    · cases hfound
      rw [List.isEmpty_iff] at hempty
      simp [hempty]
    · exact h k found hfound

theorem filled_retain (keep : DependencyError → Bool) : (store.retain keep).Filled := by
  intro k found hfound
  rw [retain, OrderedMap.get?_filter, Option.filter_eq_some_iff] at hfound
  simpa using hfound.2

theorem Filled.retainAt (h : store.Filled) (key : String) (keep : DependencyError → Bool) :
    (store.retainAt key keep).Filled :=
  h.put key _

theorem Filled.addCycle (h : store.Filled) (cycle : List Path) : (store.addCycle cycle).Filled :=
  List.foldlRecOn _ _ (motive := Filled) h fun _ h _ _ => h.append _ _

theorem Filled.perform (h : store.Filled) (operation : Operation) :
    (store.perform operation).Filled := by
  cases operation with
  | replaceExtraction path errors raised => exact (h.retainAt _ _).append _ _
  | replaceCycles cycles =>
      exact List.foldlRecOn cycles ErrorStore.addCycle (motive := Filled) (filled_retain _)
        fun _ h cycle _ => h.addCycle cycle
  | resolveReference reference => exact filled_retain _
  | flagUnresolved path reference =>
      unfold ErrorStore.perform flagUnresolved
      dsimp only
      split
      · exact h
      · exact h.append _ _
  | recordEvaluation path messages => exact (h.retainAt _ _).append _ _
  | clearPath path =>
      intro key errors hget
      rw [ErrorStore.perform, ErrorStore.clearPath, OrderedMap.get?_erase] at hget
      split at hget
      · cases hget
      · exact h key errors hget
  | clear => exact fun key errors hget => by cases hget

theorem filled_run (operations : List Operation) : (run operations).Filled :=
  List.foldlRecOn operations ErrorStore.perform (motive := Filled)
    (fun key errors hget => by cases hget) fun _ h operation _ => h.perform operation

theorem Filled.mem_paths_iff (h : store.Filled) : key ∈ store.paths ↔ store.atKey key ≠ [] := by
  rw [paths, OrderedMap.mem_keys_iff, atKey]
  constructor
  · rintro ⟨errors, hget⟩
    rw [hget]
    exact h key errors hget
  · intro hne
    cases hget : store.table.get? key with
    | none => exact absurd (by rw [hget]; rfl) hne
    | some errors => exact ⟨errors, rfl⟩

theorem Filled.isEmpty_iff (h : store.Filled) : store.isEmpty = true ↔ store.size = 0 := by
  rw [isEmpty, OrderedMap.isEmpty, List.isEmpty_iff, size, List.length_eq_zero_iff, toList,
    OrderedMap.values, List.flatten_eq_nil_iff]
  constructor
  · intro hnil
    rw [hnil]
    exact fun _ hm => absurd hm List.not_mem_nil
  · intro hnil
    refine List.eq_nil_iff_forall_not_mem.mpr fun entry hm => ?_
    exact h entry.1 entry.2 (OrderedMap.get?_eq_some_iff.mpr hm)
      (hnil entry.2 (List.mem_map_of_mem hm))

end Listed

-- The errors of a key after a run, by channel: what the last change to settle a
-- channel has made of it, and of the errors of reading what later changes let
-- stand, followed by what they flag.
structure Channels (operations : List Operation) (key : String) : Prop where
  evaluations : (run operations).evaluationsAt key = last (·.evaluations? key) operations
  cycles : (run operations).cyclesAt key = last (·.cycles? key) operations
  extractions : (run operations).extractionsAt key =
    (since (·.extractions? key) operations).foldl (Operation.revise key)
      (last (·.extractions? key) operations)
  mem_extractions : ∀ error, error ∈ (run operations).extractionsAt key ↔
    ∃ front operation back, operations = front ++ operation :: back ∧
      operation.Records key error ∧ ∀ later ∈ back, ¬later.Drops key error
  flagged : ∃ flagged, (run operations).extractionsAt key =
    standing (since (·.extractions? key) operations)
      (last (·.extractions? key) operations) ++ flagged ∧ flagged.Nodup ∧
        ∀ error ∈ flagged, error ∉ standing (since (·.extractions? key) operations)
          (last (·.extractions? key) operations)

-- After any changes, the errors of a path are told by the last change to each
-- channel and by those since.
theorem channels_run (operations : List Operation) :
    (∀ key, Channels operations key) ∧
      (∀ key, key ∈ (run operations).paths ↔ (run operations).atKey key ≠ []) ∧
        ((run operations).isEmpty = true ↔ (run operations).size = 0) := by
  refine ⟨fun key => ⟨evaluationsAt_run operations, cyclesAt_run operations,
    extractionsAt_run operations, fun _ => mem_extractionsAt_run operations, ?_⟩,
    fun key => (filled_run operations).mem_paths_iff, (filled_run operations).isEmpty_iff⟩
  rw [extractionsAt_run]
  exact exists_flagged _ _

end Recalc.ErrorStore

import Recalc.Proofs.Binding.Locality
import Recalc.Proofs.Path.Below
import Mathlib.Data.List.Flatten

namespace Recalc.Binding

variable {config : Config} {known more : Path → Bool} {path target : Path} {reference : Reference}
  {parsed : Parsed} {unresolved : Bool}

section Choice

-- What a chain reads: the longest of its prefixes that are known, or what
-- stands for a chain without one, unless a global is its root.
inductive Chooses (config : Config) (known : Path → Bool) (reference : Reference) :
    Path → Bool → Prop
  | longest {target : Path} (isKnown : known target = true)
      (onChain : reference.chain.startsWith target = true)
      (covers : ∀ other, known other = true → reference.chain.startsWith other = true →
        target.startsWith other = true) : Chooses config known reference target false
  | kept (isUnknown : ∀ other, reference.chain.startsWith other = true → known other = false)
      (notGlobal : config.isIgnoredGlobal reference.chain.entity = false) :
      Chooses config known reference reference.verbatim true

theorem knownPrefix_eq_some_iff {chain : Path} :
    knownPrefix known chain chain.depth = some target ↔
      known target = true ∧ chain.startsWith target = true ∧
        ∀ other, known other = true → chain.startsWith other = true →
          target.startsWith other = true := by
  have hspec : ∀ {found}, knownPrefix known chain chain.depth = some found →
      known found = true ∧ chain.startsWith found = true ∧
        ∀ other, known other = true → chain.startsWith other = true →
          found.startsWith other = true := by
    intro found h
    obtain ⟨hknown, top, _, rfl, hlongest⟩ := longest_knownPrefix h
    refine ⟨hknown, Path.startsWith_truncate chain top, fun other hother hon => ?_⟩
    have hat := Path.truncate_of_startsWith hon
    have htop : other.depth ≤ top := by
      by_contra hgt
      have hunknown := hlongest _ (Path.depth_le_of_startsWith hon) (Nat.lt_of_not_le hgt)
      rw [hat, hother] at hunknown
      cases hunknown
    rw [← hat]
    exact Path.startsWith_iff.mpr ⟨rfl, List.take_prefix_take_left htop⟩
  refine ⟨hspec, fun ⟨hknown, hon, hlongest⟩ => ?_⟩
  cases hfound : knownPrefix known chain chain.depth with
  | none =>
      have hunknown := unknown_of_knownPrefix hfound _ (Path.depth_le_of_startsWith hon)
      rw [Path.truncate_of_startsWith hon, hknown] at hunknown
      cases hunknown
  | some found =>
      obtain ⟨hfknown, hfon, hflongest⟩ := hspec hfound
      rw [Path.startsWith_antisymm (hflongest target hknown hon) (hlongest found hfknown hfon)]

theorem knownPrefix_eq_none_iff {chain : Path} :
    knownPrefix known chain chain.depth = none ↔
      ∀ other, chain.startsWith other = true → known other = false := by
  constructor
  · intro h other hon
    rw [← Path.truncate_of_startsWith hon]
    exact unknown_of_knownPrefix h _ (Path.depth_le_of_startsWith hon)
  · intro h
    cases hfound : knownPrefix known chain chain.depth with
    | none => rfl
    | some found =>
        obtain ⟨hknown, hon, _⟩ := knownPrefix_eq_some_iff.mp hfound
        rw [h found hon] at hknown
        cases hknown

theorem chosen_iff :
    chosen config known reference = some (target, unresolved) ↔
      Chooses config known reference target unresolved := by
  constructor
  · intro h
    unfold chosen at h
    split at h
    · next found hfound =>
      cases h
      obtain ⟨hknown, hon, hlongest⟩ := knownPrefix_eq_some_iff.mp hfound
      exact .longest hknown hon hlongest
    · next hnone =>
      split at h <;> cases h
      next hglobal =>
        exact .kept (knownPrefix_eq_none_iff.mp hnone) (Bool.eq_false_iff.mpr hglobal)
  · rintro (⟨hknown, hon, hlongest⟩ | ⟨hunknown, hglobal⟩)
    · rw [chosen, knownPrefix_eq_some_iff.mpr ⟨hknown, hon, hlongest⟩]
    · rw [chosen, knownPrefix_eq_none_iff.mpr hunknown]
      dsimp only
      rw [if_neg (Bool.eq_false_iff.mp hglobal)]

-- A chain with a known prefix is read at one.
theorem exists_chosen (config : Config) (hknown : known target = true)
    (hon : reference.chain.startsWith target = true) :
    ∃ further, chosen config known reference = some (further, false) := by
  unfold chosen
  split
  · next found _ => exact ⟨found, rfl⟩
  · next hnone =>
    rw [knownPrefix_eq_none_iff.mp hnone target hon] at hknown
    cases hknown

-- What is not resolved with more keys is not resolved with fewer.
theorem chosen_of_unresolved (h : ∀ key, known key = true → more key = true)
    (hchosen : chosen config more reference = some (target, true)) :
    chosen config known reference = some (target, true) := by
  cases chosen_iff.mp hchosen with
  | kept isUnknown notGlobal =>
      refine chosen_iff.mpr (.kept (fun other hon => ?_) notGlobal)
      exact Bool.eq_false_iff.mpr fun hk => Bool.eq_false_iff.mp (isUnknown other hon) (h other hk)

end Choice

section Errors

def errorsOf (kind : ErrorKind) (errors : List DependencyError) : List DependencyError :=
  errors.filter fun error => decide (error.kind = kind)

theorem errorsOf_append (kind : ErrorKind) (errors others : List DependencyError) :
    errorsOf kind (errors ++ others) = errorsOf kind errors ++ errorsOf kind others :=
  List.filter_append errors others

theorem errorsOf_syntax {kind : ErrorKind} (h : kind ≠ .bindingSyntax) (path : String)
    (errors : List SyntaxError) :
    errorsOf kind (errors.map fun error => .bindingSyntax path error.message) = [] := by
  refine List.filter_eq_nil_iff.mpr fun error he => ?_
  obtain ⟨_, _, rfl⟩ := List.mem_map.mp he
  rw [decide_eq_true_iff]
  exact h.symm

theorem not_any_isSelfReference {errors : List DependencyError} :
    errors.any isSelfReference = false ↔ errorsOf .selfReference errors = [] := by
  have hkind : ∀ error, isSelfReference error = decide (error.kind = .selfReference) :=
    fun error => by cases error <;> rfl
  rw [errorsOf, List.filter_eq_nil_iff, List.any_eq_false]
  simp only [hkind]

theorem errorsOf_choiceErrors (config : Config) (path : Path) (choice : Path × Bool) :
    errorsOf .unresolvedReference (choiceErrors config path choice) =
        choiceErrors config path choice ∧
      errorsOf .selfReference (choiceErrors config path choice) = [] := by
  unfold choiceErrors
  split <;> exact ⟨rfl, rfl⟩

theorem errorsOf_unresolvedErrors :
    errorsOf .unresolvedReference (unresolvedErrors config known path reference) =
        unresolvedErrors config known path reference ∧
      errorsOf .selfReference (unresolvedErrors config known path reference) = [] := by
  unfold unresolvedErrors
  cases chosen config known reference with
  | none => exact ⟨rfl, rfl⟩
  | some choice => simpa using errorsOf_choiceErrors config path choice

theorem unresolved_addReference (found : Dependencies) :
    errorsOf .unresolvedReference (addReference config known path found reference).errors =
      errorsOf .unresolvedReference found.errors ++
        unresolvedErrors config known path reference := by
  have hself (holds : Bool) : errorsOf .unresolvedReference
      (if holds then [.selfReference path.render] else []) = [] := by cases holds <;> rfl
  rw [errors_addReference, errorsOf_append, errorsOf_append, hself, errorsOf_unresolvedErrors.1,
    List.append_nil]

theorem selfReferences_addReference (found : Dependencies) :
    errorsOf .selfReference (addReference config known path found reference).errors =
      errorsOf .selfReference found.errors ++
        if readsSelf config known path reference && !found.errors.any isSelfReference then
          [.selfReference path.render] else [] := by
  have hself (holds : Bool) : errorsOf .selfReference
      (if holds then [.selfReference path.render] else []) =
        if holds then [.selfReference path.render] else [] := by cases holds <;> rfl
  rw [errors_addReference, errorsOf_append, errorsOf_append, hself, errorsOf_unresolvedErrors.2,
    List.append_nil]

theorem any_isSelfReference_addReference (found : Dependencies) :
    (addReference config known path found reference).errors.any isSelfReference =
      (found.errors.any isSelfReference || readsSelf config known path reference) := by
  rw [errors_addReference, List.any_append, List.any_append,
    not_any_isSelfReference.mpr errorsOf_unresolvedErrors.2, Bool.or_false]
  cases found.errors.any isSelfReference <;> cases readsSelf config known path reference <;> rfl

theorem unresolved_resolve :
    errorsOf .unresolvedReference (resolve config known path parsed).errors =
      parsed.references.flatMap (unresolvedErrors config known path) := by
  have hfold : ∀ (references : List Reference) (found : Dependencies),
      errorsOf .unresolvedReference
          (references.foldl (addReference config known path) found).errors =
        errorsOf .unresolvedReference found.errors ++
          references.flatMap (unresolvedErrors config known path) := by
    intro references
    induction references with
    | nil => simp
    | cons reference rest ih =>
        intro found
        rw [List.foldl_cons, ih, unresolved_addReference, List.flatMap_cons, List.append_assoc]
  rw [resolve, hfold, errorsOf_syntax (by decide), List.nil_append]

-- By induction on the references. The report is made at the first of them that
-- leads to the path, unless the errors before hold it.
theorem selfReferences_resolve :
    errorsOf .selfReference (resolve config known path parsed).errors =
      if parsed.references.any (readsSelf config known path) then
        [.selfReference path.render] else [] := by
  have hfold : ∀ (references : List Reference) (found : Dependencies),
      errorsOf .selfReference
          (references.foldl (addReference config known path) found).errors =
        errorsOf .selfReference found.errors ++
          if references.any (readsSelf config known path) &&
            !found.errors.any isSelfReference then [.selfReference path.render] else [] := by
    intro references
    induction references with
    | nil => simp
    | cons reference rest ih =>
        intro found
        rw [List.foldl_cons, ih, selfReferences_addReference, any_isSelfReference_addReference,
          List.any_cons, List.append_assoc]
        congr 1
        cases found.errors.any isSelfReference <;>
          cases readsSelf config known path reference <;> simp
  have hsyntax : errorsOf .selfReference (parsed.errors.map fun error =>
      .bindingSyntax path.render error.message) = [] := errorsOf_syntax (by decide) _ _
  rw [resolve, hfold, not_any_isSelfReference.mpr hsyntax, hsyntax, List.nil_append, Bool.not_false,
    Bool.and_true]

end Errors

section Growth

-- What a binding reads and reports under any keys.
structure ReadsChosen (config : Config) (known : Path → Bool) (path : Path) (parsed : Parsed) :
    Prop where
  choice : ∀ reference target unresolved,
    chosen config known reference = some (target, unresolved) ↔
      Chooses config known reference target unresolved
  references : ∀ target, target ∈ (resolve config known path parsed).references ↔
    target ≠ path ∧ ∃ reference ∈ parsed.references, ∃ unresolved,
      Chooses config known reference target unresolved
  apart : path ∉ (resolve config known path parsed).references
  unresolved : ∀ error,
    error ∈ errorsOf .unresolvedReference (resolve config known path parsed).errors ↔
      ∃ reference ∈ parsed.references, ∃ target, Chooses config known reference target true ∧
        config.reportUnresolved = true ∧ error = .unresolvedReference path.render target.render
  reported : (∃ reference ∈ parsed.references, ∃ unresolved,
      Chooses config known reference path unresolved) →
    errorsOf .selfReference (resolve config known path parsed).errors =
      [.selfReference path.render]
  unreported : (¬∃ reference ∈ parsed.references, ∃ unresolved,
      Chooses config known reference path unresolved) →
    errorsOf .selfReference (resolve config known path parsed).errors = []

-- What more keys change.
structure Refines (config : Config) (known more : Path → Bool) (path : Path) (parsed : Parsed) :
    Prop where
  further : ∀ reference ∈ parsed.references, ∀ key, known key = true →
    reference.chain.startsWith key = true →
      ∃ target further, Chooses config known reference target false ∧
        Chooses config more reference further false ∧ further.startsWith target = true
  unresolved : (errorsOf .unresolvedReference (resolve config more path parsed).errors).Sublist
    (errorsOf .unresolvedReference (resolve config known path parsed).errors)
  unchanged : (∀ reference ∈ parsed.references, ∀ key, more key = true → known key = false →
      reference.chain.startsWith key = false) →
    resolve config more path parsed = resolve config known path parsed

theorem readsChosen (config : Config) (known : Path → Bool) (path : Path) (parsed : Parsed) :
    ReadsChosen config known path parsed where
  choice _ _ _ := chosen_iff
  references _ := by simp only [mem_references_resolve, chosen_iff]
  apart h := (mem_references_resolve.mp h).1 rfl
  unresolved _ := by
    simp only [unresolved_resolve, List.mem_flatMap, mem_unresolvedErrors, chosen_iff]
  reported := by
    rintro ⟨reference, hr, unresolved, hchooses⟩
    rw [selfReferences_resolve, if_pos]
    exact List.any_eq_true.mpr
      ⟨reference, hr, readsSelf_iff.mpr ⟨unresolved, chosen_iff.mpr hchooses⟩⟩
  unreported h := by
    rw [selfReferences_resolve, if_neg]
    intro hany
    obtain ⟨reference, hr, hself⟩ := List.any_eq_true.mp hany
    obtain ⟨unresolved, hchosen⟩ := readsSelf_iff.mp hself
    exact h ⟨reference, hr, unresolved, chosen_iff.mp hchosen⟩

-- The longest known prefix is known among more keys as well.
theorem startsWith_of_chooses {further : Path} (h : ∀ key, known key = true → more key = true)
    (hknown : Chooses config known reference target false)
    (hmore : Chooses config more reference further false) : further.startsWith target = true := by
  cases hknown with
  | longest isKnown onChain _ =>
      cases hmore with
      | longest _ _ covers => exact covers target (h target isKnown) onChain

theorem unresolvedErrors_sublist (h : ∀ key, known key = true → more key = true)
    (path : Path) (reference : Reference) :
    (unresolvedErrors config more path reference).Sublist
      (unresolvedErrors config known path reference) := by
  have hresolved : ∀ target, choiceErrors config path (target, false) = [] := fun _ => rfl
  unfold unresolvedErrors
  cases hchosen : chosen config more reference with
  | none => exact List.nil_sublist _
  | some choice =>
      obtain ⟨target, unresolved⟩ := choice
      cases unresolved with
      | true => exact (chosen_of_unresolved h hchosen).symm ▸ List.Sublist.refl _
      | false =>
          rw [Option.toList_some, List.flatMap_singleton, hresolved]
          exact List.nil_sublist _

-- Keys on no chain are not asked for.
theorem resolve_congr
    (h : ∀ reference ∈ parsed.references, ∀ key, reference.chain.startsWith key = true →
      more key = known key) :
    resolve config more path parsed = resolve config known path parsed := by
  unfold resolve
  refine List.foldl_rel (r := (· = ·)) rfl fun reference hr found _ he => ?_
  rw [← he, addReference, addReference, chosen_congr fun depth =>
    h reference hr _ (Path.startsWith_truncate reference.chain depth)]

-- More keys take a reading further along its chains.
theorem resolve_refines (config : Config) (known more : Path → Bool) (path : Path)
    (parsed : Parsed) (h : ∀ key, known key = true → more key = true) :
    Refines config known more path parsed ∧
      ∀ keys : Path → Bool, ReadsChosen config keys path parsed := by
  refine ⟨⟨?_, ?_, ?_⟩, fun keys => readsChosen config keys path parsed⟩
  · intro reference _ key hkey hon
    obtain ⟨target, htarget⟩ := exists_chosen config hkey hon
    obtain ⟨further, hfurther⟩ := exists_chosen config (h key hkey) hon
    have hknown := chosen_iff.mp htarget
    have hmore := chosen_iff.mp hfurther
    exact ⟨target, further, hknown, hmore, startsWith_of_chooses h hknown hmore⟩
  · rw [unresolved_resolve, unresolved_resolve]
    exact List.Sublist.flatMap_right _ fun reference _ => unresolvedErrors_sublist h path reference
  · intro hoff
    refine resolve_congr fun reference hr key hon => ?_
    cases hknown : known key with
    | true => exact h key hknown
    | false =>
        refine Bool.eq_false_iff.mpr fun hmore => ?_
        rw [hoff reference hr key hmore hknown] at hon
        cases hon

-- The data of an API becomes known, and so does a chart that nothing reads.
theorem resolve_refines_data :
    let path : Path := ⟨"Label", [.key "text"]⟩
    let api : Path := .ofEntity "Api"
    let data : Path := ⟨"Api", [.key "data"]⟩
    let field : Path := ⟨"Field", [.key "value"]⟩
    let chart : Path := .ofEntity "Chart"
    let parsed := parse .code "Label.text + Api.data.length + Field.value"
    let errors := [.selfReference "Label.text", .unresolvedReference "Label.text" "Field.value"]
    let among (keys : List Path) (key : Path) : Bool := keys.contains key
    Refines .standard (among [api, path]) (among [api, path, data]) path parsed ∧
      resolve .standard (among [api, path]) path parsed = ⟨.ofList [api, field], errors⟩ ∧
      resolve .standard (among [api, path, data]) path parsed =
        ⟨.ofList [data, field], errors⟩ ∧
      ReadsChosen .standard (among [api, path]) path parsed ∧
      resolve .standard (among [api, path, chart]) path parsed =
        ⟨.ofList [api, field], errors⟩ := by
  intro path api data field chart parsed errors among
  have hgrows : ∀ (last key : Path), among [api, path] key = true →
      among [api, path, last] key = true := by
    intro last key h
    simp only [among, List.contains_cons, List.contains_nil, Bool.or_false,
      Bool.or_eq_true] at h ⊢
    exact h.imp_right Or.inl
  have hknown : resolve .standard (among [api, path]) path parsed =
      ⟨.ofList [api, field], errors⟩ := by decide +kernel
  obtain ⟨hrefines, hchosen⟩ :=
    resolve_refines .standard (among [api, path]) (among [api, path, data]) path parsed
      (hgrows data)
  have haside :=
    (resolve_refines .standard (among [api, path]) (among [api, path, chart]) path parsed
      (hgrows chart)).1.unchanged
  refine ⟨hrefines, hknown, by decide +kernel, hchosen _, (haside ?_).trans hknown⟩
  have hoff : ∀ reference ∈ parsed.references, reference.chain.startsWith chart = false := by
    decide +kernel
  intro reference hr key hnew hold
  have hkey : key = chart := by
    simp only [among, List.contains_cons, List.contains_nil, Bool.or_false, Bool.or_eq_true,
      Bool.or_eq_false_iff, beq_iff_eq, beq_eq_false_iff_ne] at hnew hold
    exact (hnew.resolve_left hold.1).resolve_left hold.2
  rw [hkey]
  exact hoff reference hr

end Growth

end Recalc.Binding

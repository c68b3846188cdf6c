import Recalc.Proofs.Path.Location

namespace Recalc

namespace Segment

instance : DecidablePred Segment.Canonical
  | .key name => inferInstanceAs (Decidable (position? name.toList = none))
  | .index position => inferInstanceAs (Decidable (position < Number.wordLimit))

-- A name makes a canonical step unless it is the spelling of a machine word.
theorem canonical_key_iff {name : String} : (key name).Canonical ↔
    ∀ position < Number.wordLimit, toString position ≠ name := by
  constructor
  · rintro h position hlt rfl
    exact Option.some_ne_none position ((position?_toString hlt).symm.trans h)
  · intro h
    by_contra hspells
    obtain ⟨position, hposition⟩ := Option.ne_none_iff_exists'.mp hspells
    have hcanonical : (index position).Canonical := by
      have hname := canonical_ofName name
      rwa [ofName, hposition] at hname
    refine h position hcanonical ?_
    rw [← String.toList_inj, toList_toString, toDigits_of_position? hposition]

end Segment

namespace Path

variable {path other above : Path} {segment : Segment} {text : String}

theorem canonical_iff_all : path.Canonical ↔ path.entity ≠ "" ∧
    path.entity.toList.all (fun c => startsAccessor c == false) = true ∧
      path.segments.all (fun segment => decide segment.Canonical) = true := by
  simp only [List.all_eq_true, beq_iff_eq, decide_eq_true_eq]
  exact ⟨fun h => ⟨h.named, h.plain, h.steps⟩, fun ⟨named, plain, steps⟩ => ⟨named, plain, steps⟩⟩

instance : DecidablePred Path.Canonical := fun _ => decidable_of_iff _ canonical_iff_all.symm

namespace Canonical

theorem child (h : path.Canonical) (hsegment : segment.Canonical) :
    (path.child segment).Canonical := by
  refine ⟨h.named, h.plain, fun step hstep => ?_⟩
  rcases List.mem_append.mp hstep with hstep | hstep
  · exact h.steps step hstep
  · rwa [List.mem_singleton.mp hstep]

-- Whatever takes no new steps below the entity.
theorem shorten (h : path.Canonical) (hentity : other.entity = path.entity)
    (hsteps : other.segments ⊆ path.segments) : other.Canonical :=
  ⟨hentity ▸ h.named, hentity ▸ h.plain, fun step hstep => h.steps step (hsteps hstep)⟩

theorem truncate (h : path.Canonical) (depth : Nat) : (path.truncate depth).Canonical :=
  h.shorten rfl (List.take_subset depth _)

theorem parent (h : path.Canonical) (hparent : path.parent? = some above) : above.Canonical := by
  obtain ⟨segment, rfl⟩ := parent?_eq_some_iff.mp hparent
  exact h.shorten rfl (List.subset_append_left _ _)

theorem ancestor (h : path.Canonical) (hother : other ∈ path.ancestors) : other.Canonical := by
  obtain ⟨depth, _, rfl⟩ := List.mem_map.mp hother
  exact h.truncate depth

theorem ofRelative_relative (h : path.Canonical) : ofRelative path.entity path.relative = path := by
  refine ofRelative_of_accessors ?_ h.named h.plain
  rw [dotted_relative]
  exact accessors_stepsSpelling h.steps

theorem of_parse (h : parse text = .ok path) : path.Canonical := by
  have hentity := entity_parse h
  refine ⟨fun hnil => ?_, fun c hc => ?_, canonical_parse h⟩
  · have hempty : (splitEntity text.toList).1 = [] := by
      rw [← String.ofList_eq_empty_iff, ← hentity, hnil]
    unfold parse at h
    dsimp only at h
    rw [hempty] at h
    split at h
    · cases h
    · cases h
  · rw [hentity] at hc
    exact plain_splitEntity text.toList c hc

end Canonical

-- The operations lead from a path to canonical paths. Positions are machine
-- words.
structure LeadsToCanonical (path : Path) : Prop where
  childKey : ∀ name, (path.childKey name).Canonical
  childIndex : ∀ position < Number.wordLimit, (path.childIndex position).Canonical
  parent : ∀ parent, path.parent? = some parent → parent.Canonical
  ancestors : ∀ ancestor ∈ path.ancestors, ancestor.Canonical
  truncate : ∀ depth, (path.truncate depth).Canonical

-- The texts of a path lead back to it, and of the canonical paths no other one
-- has its text.
structure ReadsBack (path : Path) : Prop where
  parse : parse path.render = .ok path
  ofRelative : ofRelative path.entity path.relative = path
  alone : ∀ other : Path, other.Canonical → (other.render = path.render ↔ other = path)

theorem Canonical.leadsToCanonical (h : path.Canonical) : path.LeadsToCanonical where
  childKey name := h.child (Segment.canonical_ofName name)
  childIndex _ hlt := h.child hlt
  parent _ hparent := h.parent hparent
  ancestors _ hother := h.ancestor hother
  truncate depth := h.truncate depth

theorem Canonical.readsBack (h : path.Canonical) : path.ReadsBack where
  parse := parse_render h
  ofRelative := h.ofRelative_relative
  alone _ hother := ⟨render_inj hother.plain h.plain, congrArg render⟩

-- Canonical paths are what the strict reader yields. They are closed under the
-- operations on paths, and each of them is read back from its texts.
theorem canonical_round_trip :
    (∀ name, (Segment.key name).Canonical ↔
      ∀ position < Number.wordLimit, toString position ≠ name) ∧
      (∀ text path, parse text = .ok path → path.Canonical) ∧
      ∀ path : Path, path.Canonical →
        path.LeadsToCanonical ∧ path.ReadsBack ∧ ∃ text, parse text = .ok path :=
  ⟨fun _ => Segment.canonical_key_iff, fun _ _ => Canonical.of_parse,
    fun path h => ⟨h.leadsToCanonical, h.readsBack, path.render, parse_render h⟩⟩

-- A word that code reserves, quotes and braces, no characters at all, a leading
-- zero, the number after the last machine word, and the last machine word.
def awkward : Path :=
  ⟨"Table1", [.key "let", .key "\x7d\x7d\"`\\é", .key "", .key "01", .key "18446744073709551616",
    .index 18446744073709551615]⟩

def awkwardText : String :=
  "Table1.let[\"\x7d\x7d\\\"`\\\\é\"][\"\"][\"01\"]" ++
    "[\"18446744073709551616\"][18446744073709551615]"

theorem round_trip_awkward : awkward.Canonical ∧ awkward.render = awkwardText ∧
    parse awkwardText = .ok awkward ∧ ofRelative "Table1" awkward.relative = awkward := by
  have hcanonical : awkward.Canonical := by decide +kernel
  have hrender : awkward.render = awkwardText := by decide +kernel
  have hback := (canonical_round_trip.2.2 awkward hcanonical).2.1
  exact ⟨hcanonical, hrender, hrender ▸ hback.parse, hback.ofRelative⟩

end Path

end Recalc

import Recalc.Proofs.Binding.Lexing
import Recalc.Proofs.Binding.Locality
import Recalc.Proofs.Binding.Template
import Recalc.Proofs.Path.Canonical

namespace Recalc

namespace Segment

-- The tokens of the step's spelling.
def tokens : Segment → List Binding.Token
  | .key name =>
    if Text.isIdentifier name.toList then [.mark '.', .ident name]
    else [.mark '[', .str name, .mark ']']
  | .index position => [.mark '[', .number (toString position), .mark ']']

end Segment

namespace Binding

open Recalc.Path (EndsName stepsSpelling)

variable {path : Path} {segment : Segment} {segments : List Segment}

section Lexing

variable {text rest : List Char} {name : String} {brackets : List (Char × List Char)}

-- What is read with some tokens before it.
def Lexed.after (tokens : List Token) (later : Lexed) : Lexed :=
  ⟨tokens ++ later.tokens, later.errors⟩

theorem lexemes_ident (hi : Text.isIdentifier name.toList = true) (hrest : EndsName rest) :
    lexemes (name.toList ++ rest) = .token (.ident name) (name.toList ++ rest) :: lexemes rest := by
  have hends : ∀ c ∈ rest.head?, Text.continuesIdentifier c = false := fun c hc => by
    by_contra hcontinues
    rw [Bool.not_eq_false] at hcontinues
    cases (hrest c hc).symm.trans (Segment.startsAccessor_of_continues hcontinues)
  obtain ⟨c, chars, hname, -⟩ := Text.starts_of_isIdentifier hi
  have hstep := step_ident (hname ▸ hi) hends
  rw [← hname, String.ofList_toList] at hstep
  rw [hname, List.cons_append, lexemes_of_token hstep]

theorem settle_named (hi : Text.isIdentifier name.toList = true) (hrest : EndsName rest) :
    settle text brackets (lexemes ('.' :: (name.toList ++ rest))) =
      (settle text brackets (lexemes rest)).after [.mark '.', .ident name] := by
  have hdot : step '.' (name.toList ++ rest) = .token (.mark '.') (name.toList ++ rest) := by
    obtain ⟨c, chars, hname, hstarts⟩ := Text.starts_of_isIdentifier hi
    rw [hname]
    exact step_dot hstarts
  rw [lexemes_of_token hdot, lexemes_ident hi hrest]
  rfl

-- The bracket that a step opens is closed at its end.
theorem settle_quoted (hline : '\n' ∉ name.toList) :
    settle text brackets (lexemes ('[' :: '"' :: (Segment.escaped name.toList ++
      '"' :: ']' :: rest))) =
        (settle text brackets (lexemes rest)).after [.mark '[', .str name, .mark ']'] := by
  rw [lexemes_of_token (step_bracket (Or.inl rfl) _), lexemes_of_token (step_quoted hline _),
    lexemes_of_token (step_bracket (Or.inr rfl) _), String.ofList_toList]
  rfl

theorem settle_counted (position : Nat) :
    settle text brackets (lexemes ('[' :: ((toString position).toList ++ ']' :: rest))) =
      (settle text brackets (lexemes rest)).after
        [.mark '[', .number (toString position), .mark ']'] := by
  have hdigits : ∀ c ∈ (toString position).toList, c.isDigit = true := fun _ hc =>
    Segment.isDigit_of_mem_toString hc
  obtain ⟨c, digits, hposition⟩ := List.exists_cons_of_ne_nil
    (show (toString position).toList ≠ [] from
      Segment.toList_toString position ▸ Nat.toDigits_ne_nil)
  have hclose : ∀ d ∈ (']' :: rest).head?, continuesNumber d = false := fun d hd => by
    cases hd
    rfl
  have hnumber := step_number (hposition ▸ hdigits) hclose
  rw [← hposition, String.ofList_toList] at hnumber
  rw [lexemes_of_token (step_bracket (Or.inl rfl) _), hposition, List.cons_append,
    lexemes_of_token hnumber, lexemes_of_token (step_bracket (Or.inr rfl) _)]
  rfl

theorem settle_spelling (hline : ∀ name, segment = .key name → '\n' ∉ name.toList)
    (hrest : EndsName rest) : settle text brackets (lexemes (segment.spelling ++ rest)) =
      (settle text brackets (lexemes rest)).after segment.tokens := by
  cases segment with
  | key name =>
      by_cases hi : Text.isIdentifier name.toList = true
      · rw [Segment.spelling, Segment.tokens, if_pos hi, if_pos hi]
        exact settle_named hi hrest
      · rw [Segment.spelling, Segment.tokens, if_neg hi, if_neg hi]
        simp only [List.cons_append, List.append_assoc, List.nil_append]
        exact settle_quoted (hline name rfl)
  | index position =>
      rw [Segment.spelling, Segment.tokens]
      simp only [List.cons_append, List.append_assoc, List.nil_append]
      exact settle_counted position

-- Step by step; what follows a step begins with the mark of the next one.
theorem settle_stepsSpelling
    (hlines : ∀ name, .key name ∈ segments → '\n' ∉ name.toList) :
    settle text [] (lexemes (stepsSpelling segments)) = ⟨segments.flatMap Segment.tokens, []⟩ := by
  induction segments with
  | nil =>
      rw [stepsSpelling, List.flatMap_nil, lexemes_nil]
      rfl
  | cons segment rest ih =>
      have hsteps : stepsSpelling (segment :: rest) = segment.spelling ++ stepsSpelling rest := rfl
      rw [hsteps, settle_spelling (fun name he => hlines name (he ▸ List.mem_cons_self))
        (Segment.endsName_stepsSpelling rest),
        ih fun name hname => hlines name (List.mem_cons_of_mem _ hname)]
      rfl

theorem tokenize_spelling (hroot : Text.isIdentifier path.entity.toList = true)
    (hlines : ∀ name, .key name ∈ path.segments → '\n' ∉ name.toList) :
    tokenize path.spelling = ⟨.ident path.entity :: path.segments.flatMap Segment.tokens, []⟩ := by
  rw [tokenize, Path.spelling, lexemes_ident hroot (Segment.endsName_stepsSpelling path.segments)]
  exact congrArg (Lexed.after [.ident path.entity]) (settle_stepsSpelling hlines)

end Lexing

section Accessors

-- Tokens that are accessors and nothing else.
inductive Accessors : List Token → Prop
  | nil : Accessors []
  | named (name : String) {rest : List Token} (h : Accessors rest) :
      Accessors (.mark '.' :: .ident name :: rest)
  | quoted (name : String) {rest : List Token} (h : Accessors rest) :
      Accessors (.mark '[' :: .str name :: .mark ']' :: rest)
  | counted (digits : String) {rest : List Token} (h : Accessors rest) :
      Accessors (.mark '[' :: .number digits :: .mark ']' :: rest)

theorem accessors_tokens (segments : List Segment) :
    Accessors (segments.flatMap Segment.tokens) := by
  induction segments with
  | nil => exact .nil
  | cons segment rest ih =>
      rw [List.flatMap_cons]
      cases segment with
      | key name =>
          rw [Segment.tokens]
          split
          · exact .named name ih
          · exact .quoted name ih
      | index position => exact .counted _ ih

variable {tokens before : List Token} {names : List String} {previous : Option Token}

namespace Accessors

theorem groupNames (h : Accessors tokens) : groupNames tokens = [] := by
  cases h <;> rfl

-- A name that declares others declares none before an accessor.
theorem introduced (h : Accessors tokens) (word : String) :
    introduced before (.ident word) tokens = [] := by
  unfold Binding.introduced
  dsimp only
  split
  · split
    · cases h
    · exact h.groupNames
  · split
    · exact h.groupNames
    · rfl

theorem localNames (h : Accessors tokens) : localNames before tokens = [] := by
  induction h generalizing before with
  | nil => rfl
  | named name h ih =>
      rw [Binding.localNames, Binding.localNames, h.introduced name, ih]
      rfl
  | quoted name h ih =>
      rw [Binding.localNames, Binding.localNames, Binding.localNames, ih]
      rfl
  | counted digits h ih =>
      rw [Binding.localNames, Binding.localNames, Binding.localNames, ih]
      rfl

-- The name in an accessor is no root of a chain.
theorem references (h : Accessors tokens) : references names previous tokens = [] := by
  induction h generalizing previous with
  | nil => rfl
  | @named name rest h ih =>
      have haccess : isReference names (some (.mark '.')) name rest = false := by
        simp [isReference, isAccess]
      rw [Binding.references, Binding.references, haccess, ih]
      · rfl
      · exact fun _ he => by cases he
  | quoted name h ih =>
      rw [Binding.references, Binding.references, Binding.references, ih]
      all_goals exact fun _ he => by cases he
  | counted digits h ih =>
      rw [Binding.references, Binding.references, Binding.references, ih]
      all_goals exact fun _ he => by cases he

end Accessors

-- Following the accessors of canonical steps leads to the path with these
-- steps.
theorem follow_tokens (hsteps : ∀ segment ∈ segments, segment.Canonical) (chain : Path) :
    follow chain (segments.flatMap Segment.tokens) =
      (⟨chain.entity, chain.segments ++ segments⟩, []) := by
  induction segments generalizing chain with
  | nil => simp [follow]
  | cons segment rest ih =>
      obtain ⟨hsegment, hrest⟩ := List.forall_mem_cons.mp hsteps
      have hchild : chain.childKey segment.name = chain.child segment := by
        rw [Path.childKey, Segment.ofName_name hsegment]
      have hfollow : follow chain (segment.tokens ++ rest.flatMap Segment.tokens) =
          follow (chain.child segment) (rest.flatMap Segment.tokens) := by
        rw [← hchild]
        cases segment with
        | key name =>
            rw [Segment.tokens]
            split
            · rfl
            · rfl
        | index position =>
            have hdigits : (toString position).toList.all Char.isDigit = true :=
              List.all_eq_true.mpr fun _ hc => Segment.isDigit_of_mem_toString hc
            rw [Segment.tokens]
            simp only [List.cons_append, List.nil_append, follow, hdigits, if_true, Segment.name]
      rw [List.flatMap_cons, hfollow, ih hrest, Path.child]
      simp

theorem namesMember_none (tokens : List Token) : namesMember none tokens = false := by
  simp [namesMember]

theorem namesMethod_none (tokens : List Token) : namesMethod none tokens = false := by
  unfold namesMethod
  split <;> simp

-- A free name with accessors behind it is one reference.
theorem referencesOf_tokens (hfree : isKeyword path.entity = false)
    (hsteps : ∀ segment ∈ path.segments, segment.Canonical) :
    referencesOf (.ident path.entity :: path.segments.flatMap Segment.tokens) =
      [⟨path, false⟩] := by
  have haccessors := accessors_tokens path.segments
  have hlocal :
      localNames [] (.ident path.entity :: path.segments.flatMap Segment.tokens) = [] := by
    rw [localNames, haccessors.introduced, haccessors.localNames]
    rfl
  have hroot : isReference [] none path.entity (path.segments.flatMap Segment.tokens) = true := by
    simp [isReference, hfree, isAccess, namesMember_none, namesMethod_none]
  have hread :
      readReference path.entity (path.segments.flatMap Segment.tokens) = ⟨path, false⟩ := by
    rw [readReference, follow_tokens hsteps]
    rfl
  rw [referencesOf, hlocal, references, hroot, hread, haccessors.references]
  rfl

end Accessors

section Braces

theorem passes_identifier {name : List Char} (h : Text.isIdentifier name = true) : Passes name :=
  .of_plain fun c hc => plain_of_continues (Text.continues_of_isIdentifier h c hc)

theorem passes_spelling (segment : Segment) : Passes segment.spelling := by
  have hdot : Passes ['.'] := .of_plain (List.forall_mem_singleton.mpr (by decide))
  have hopen : Passes ['['] := .of_plain (List.forall_mem_singleton.mpr (by decide))
  have hclose : Passes [']'] := .of_plain (List.forall_mem_singleton.mpr (by decide))
  cases segment with
  | key name =>
      by_cases hi : Text.isIdentifier name.toList = true
      · rw [Segment.spelling, if_pos hi]
        exact hdot.append (passes_identifier hi)
      · have hquoted := hopen.append ((Passes.quoted name.toList).append hclose)
        rw [Segment.spelling, if_neg hi]
        simpa using hquoted
  | index position =>
      refine hopen.append (.append (.of_plain fun c hc => plain_of_continues ?_) hclose)
      simp [Text.continuesIdentifier, Char.isAlphanum, Segment.isDigit_of_mem_toString hc]

theorem passes_path (hroot : Text.isIdentifier path.entity.toList = true) :
    Passes path.spelling := by
  refine (passes_identifier hroot).append ?_
  induction path.segments with
  | nil => exact fun _ _ _ => rfl
  | cons segment rest ih => exact (passes_spelling segment).append ih

end Braces

section Reading

variable {config : Config} {known : Path → Bool} {reader : Path}

theorem knownPrefix_of_known {chain : Path} (h : known chain = true) :
    knownPrefix known chain chain.depth = some chain := by
  have hwhole : chain.truncate chain.depth = chain := by simp [Path.truncate, Path.depth]
  cases hdepth : chain.depth with
  | zero => rw [knownPrefix, ← hdepth, hwhole, if_pos h]
  | succ depth => rw [knownPrefix, ← hdepth, hwhole, if_pos h]

-- A known path that is read on its own is all that is found.
theorem resolve_of_known (hknown : known path = true) (hother : reader ≠ path) (called : Bool) :
    resolve config known reader ⟨[⟨path, called⟩], []⟩ = ⟨.ofList [path], []⟩ := by
  have hchosen : chosen config known ⟨path, called⟩ = some (path, false) := by
    rw [chosen, knownPrefix_of_known hknown]
  simp only [resolve, List.map_nil, List.foldl_cons, List.foldl_nil, addReference, hchosen,
    Bool.false_and, Bool.false_eq_true, if_false, if_neg (Ne.symm hother)]
  rfl

theorem parseCode_spelling (hpath : path.Canonical)
    (hroot : Text.isIdentifier path.entity.toList = true) (hfree : isKeyword path.entity = false)
    (hlines : ∀ name, .key name ∈ path.segments → '\n' ∉ name.toList) :
    parseCode path.spelling = ⟨[⟨path, false⟩], []⟩ := by
  rw [parseCode, tokenize_spelling hroot hlines]
  dsimp only
  rw [referencesOf_tokens hfree hpath.steps]

-- The text of a path is code that reads this path and nothing else, on its own
-- as well as in a template.
theorem reads_itself (hpath : path.Canonical) (hroot : Text.isIdentifier path.entity.toList = true)
    (hfree : isKeyword path.entity = false)
    (hlines : ∀ name, .key name ∈ path.segments → '\n' ∉ name.toList) :
    let parsed : Parsed := ⟨[⟨path, false⟩], []⟩
    parse .code path.render = parsed ∧
      parse .template ("\x7b\x7b" ++ path.render ++ "\x7d\x7d") = parsed ∧
      ∀ (config : Config) (known : Path → Bool) (reader : Path), known path = true →
        reader ≠ path → resolve config known reader parsed = ⟨.ofList [path], []⟩ := by
  intro parsed
  have hcode : parseCode path.spelling = parsed := parseCode_spelling hpath hroot hfree hlines
  have htemplate : ("\x7b\x7b" ++ path.render ++ "\x7d\x7d").toList = inBraces path.spelling := by
    simp [Path.render, inBraces]
  refine ⟨?_, ?_, fun config known reader hknown hother => resolve_of_known hknown hother false⟩
  · rw [parse, Path.render, String.toList_ofList]
    exact hcode
  · rw [parse, htemplate]
    exact (passes_path hroot).parseTemplate.trans hcode

-- Reserved words and braces in the names of members do no harm.
theorem reads_awkward :
    let path := Path.awkward
    let reader : Path := ⟨"Label", [.key "text"]⟩
    path.Canonical ∧ Text.isIdentifier path.entity.toList = true ∧
      isKeyword path.entity = false ∧ (∀ name, .key name ∈ path.segments → '\n' ∉ name.toList) ∧
      path.render = Path.awkwardText ∧
      parse .template ("\x7b\x7b" ++ Path.awkwardText ++ "\x7d\x7d") = ⟨[⟨path, false⟩], []⟩ ∧
      resolve .standard (fun key => decide (key = path)) reader (parse .code Path.awkwardText) =
        ⟨.ofList [path], []⟩ := by
  intro path reader
  have hpath : path.Canonical := by decide +kernel
  have hlines : ∀ name, .key name ∈ path.segments → '\n' ∉ name.toList := by
    simp [path, Path.awkward]
  have hrender : path.render = Path.awkwardText := by decide +kernel
  obtain ⟨hcode, htemplate, hresolve⟩ := reads_itself hpath (by decide) (by decide) hlines
  rw [hrender] at hcode htemplate
  refine ⟨hpath, by decide, by decide, hlines, hrender, htemplate, ?_⟩
  rw [hcode]
  exact hresolve .standard _ reader (by decide +kernel) (by decide)

end Reading

end Binding

end Recalc

import Recalc.Proofs.Binding.Embedding

namespace Recalc.Binding

variable {c opener : Char} {text rest start opened first second : List Char} {token : Token}
  {later : List Token}

section Grammar

def pairs : List (Char × Char) := [('(', ')'), ('[', ']'), ('\x7b', '\x7d')]

-- Brackets in pairs, one pair inside of another or after it.
inductive Nested : List Char → Prop
  | nil : Nested []
  | pair {opener closer : Char} {inner rest : List Char} (hpair : (opener, closer) ∈ pairs)
      (hinner : Nested inner) (hrest : Nested rest) :
      Nested (opener :: (inner ++ closer :: rest))

-- What closes the open brackets, the last of them first.
def Completes : List Char → List Char → Prop
  | [], text => Nested text
  | opener :: others, text => ∃ inner closer rest, text = inner ++ closer :: rest ∧
      Nested inner ∧ (opener, closer) ∈ pairs ∧ Completes others rest

theorem mem_pairs_iff : (opener, c) ∈ pairs ↔ isClosing c = true ∧ opening c = opener := by
  simp only [pairs, isClosing, List.mem_cons, List.not_mem_nil, or_false, Prod.mk.injEq,
    Bool.or_eq_true, beq_iff_eq]
  constructor
  · rintro (⟨rfl, rfl⟩ | ⟨rfl, rfl⟩ | ⟨rfl, rfl⟩) <;> exact ⟨by simp, rfl⟩
  · rintro ⟨(rfl | rfl) | rfl, rfl⟩ <;> simp [opening]

theorem isOpening_opening (c : Char) : isOpening (opening c) = true := by
  unfold opening
  split <;> rfl

theorem isOpening_of_isClosing (h : isClosing c = true) : isOpening c = false := by
  simp only [isClosing, Bool.or_eq_true, beq_iff_eq] at h
  rcases h with (rfl | rfl) | rfl <;> rfl

theorem Nested.append (h : Nested first) (k : Nested second) : Nested (first ++ second) := by
  induction h with
  | nil => exact k
  | pair hpair hinner _ _ ih =>
      rw [List.cons_append, List.append_assoc, List.cons_append]
      exact .pair hpair hinner ih

-- A nested text begins with a pair.
theorem Nested.exists_pair (h : Nested (c :: text)) : ∃ inner closer rest,
    text = inner ++ closer :: rest ∧ Nested inner ∧ (c, closer) ∈ pairs ∧ Nested rest := by
  generalize hwhole : c :: text = whole at h
  cases h with
  | nil => cases hwhole
  | @pair opener closer inner rest hpair hinner hrest =>
      cases hwhole
      exact ⟨inner, closer, rest, rfl, hinner, hpair, hrest⟩

theorem not_nested_closing (h : isClosing c = true) : ¬Nested (c :: text) := by
  intro k
  obtain ⟨_, closer, _, _, _, hpair, _⟩ := k.exists_pair
  have hopen := isOpening_of_isClosing h
  rw [← (mem_pairs_iff.mp hpair).2, isOpening_opening] at hopen
  cases hopen

theorem Completes.prepend (h : Nested first) (k : Completes opened second) :
    Completes opened (first ++ second) := by
  cases opened with
  | nil => exact h.append k
  | cons opener others =>
      obtain ⟨inner, closer, rest, rfl, hinner, hpair, hrest⟩ := k
      exact ⟨first ++ inner, closer, rest, (List.append_assoc _ _ _).symm, h.append hinner, hpair,
        hrest⟩

theorem completes_nil_iff : Completes opened [] ↔ opened = [] := by
  cases opened with
  | nil => exact ⟨fun _ => rfl, fun _ => .nil⟩
  | cons opener others => simp [Completes]

-- An opening bracket waits for its partner before the others do.
theorem completes_opening_iff (h : isOpening c = true) :
    Completes opened (c :: text) ↔ Completes (c :: opened) text := by
  constructor
  · intro k
    cases opened with
    | nil => exact Nested.exists_pair k
    | cons opener others =>
        obtain ⟨before, last, after, htext, hbefore, hlast, hafter⟩ := k
        cases before with
        | nil =>
            cases htext
            rw [isOpening_of_isClosing (mem_pairs_iff.mp hlast).1] at h
            cases h
        | cons _ before =>
            cases htext
            obtain ⟨inner, closer, rest, rfl, hinner, hpair, hrest⟩ := Nested.exists_pair hbefore
            exact ⟨inner, closer, rest ++ last :: after, by simp, hinner, hpair,
              rest, last, after, rfl, hrest, hlast, hafter⟩
  · rintro ⟨inner, closer, rest, rfl, hinner, hpair, hrest⟩
    have hnested : Nested (c :: (inner ++ [closer])) := .pair hpair hinner .nil
    simpa using hrest.prepend hnested

-- A closing bracket takes its partner off.
theorem completes_closing_iff (h : isClosing c = true) :
    Completes opened (c :: text) ↔
      ∃ others, opened = opening c :: others ∧ Completes others text := by
  constructor
  · intro k
    cases opened with
    | nil => exact absurd k (not_nested_closing h)
    | cons opener others =>
        obtain ⟨before, closer, after, htext, hbefore, hpair, hafter⟩ := k
        cases before with
        | nil =>
            cases htext
            exact ⟨others, by rw [(mem_pairs_iff.mp hpair).2], hafter⟩
        | cons _ before =>
            cases htext
            exact absurd hbefore (not_nested_closing h)
  · rintro ⟨others, rfl, hrest⟩
    exact ⟨[], c, text, rfl, .nil, mem_pairs_iff.mpr ⟨h, rfl⟩, hrest⟩

end Grammar

section Stack

def bracketOf : Token → Option Char
  | .mark c => if pairs.any fun pair => c == pair.1 || c == pair.2 then some c else none
  | _ => none

-- The brackets among tokens.
def brackets (tokens : List Token) : List Char := tokens.filterMap bracketOf

def Fault.isBracket : Fault → Bool
  | .unexpected _ => true
  | .unclosed _ => true
  | _ => false

def SyntaxError.isBracket : SyntaxError → Bool
  | .found fault _ => fault.isBracket
  | .inTemplate inner _ => inner.isBracket

variable {stack : List (Char × List Char)} {lexemes : List Lexeme}

theorem brackets_append (tokens others : List Token) :
    brackets (tokens ++ others) = brackets tokens ++ brackets others :=
  List.filterMap_append

theorem bracketOf_mark (c : Char) :
    bracketOf (.mark c) = if isOpening c || isClosing c then some c else none := by
  have hpairs : (pairs.any fun pair => c == pair.1 || c == pair.2) =
      (isOpening c || isClosing c) := by
    simp only [pairs, List.any_cons, List.any_nil, Bool.or_false, isOpening, isClosing]
    ac_rfl
  rw [bracketOf, hpairs]

theorem brackets_bracket (h : isOpening c = true ∨ isClosing c = true) :
    brackets (.mark c :: later) = c :: brackets later := by
  refine List.filterMap_cons_some ?_
  rw [bracketOf_mark, if_pos (Bool.or_eq_true_iff.mpr h)]

theorem brackets_plain (h : bracketOf token = none) :
    brackets (token :: later) = brackets later :=
  List.filterMap_cons_none h

-- Lexemes that hold no code of their own, and faults of other kinds.
def Lexeme.Flat : Lexeme → Prop
  | .token _ _ => True
  | .fault cause _ => cause.isBracket = false
  | .interpolation _ _ _ => False

-- What a token asks of the brackets that are open, and what it leaves to the
-- tokens after it.
theorem completes_token_iff :
    Completes (stack.map Prod.fst) (brackets (token :: later)) ↔
      (nest text stack token start).2 = [] ∧
        Completes ((nest text stack token start).1.map Prod.fst) (brackets later) := by
  cases token with
  | mark c =>
      cases hopen : isOpening c with
      | true =>
          rw [brackets_bracket (Or.inl hopen), completes_opening_iff hopen, nest_opening hopen]
          simp [nest, hopen]
      | false =>
          cases hclose : isClosing c with
          | true =>
              rw [brackets_bracket (Or.inr hclose), completes_closing_iff hclose]
              constructor
              · rintro ⟨others, hstack, hrest⟩
                obtain ⟨⟨bracket, before⟩, rest, rfl, rfl, rfl⟩ := List.map_eq_cons_iff.mp hstack
                simpa [nest, hopen, hclose] using hrest
              · rintro ⟨hnest, hrest⟩
                obtain ⟨before, hstack⟩ := nest_closing hopen hclose hnest
                exact ⟨_, congrArg (List.map Prod.fst) hstack, hrest⟩
          | false =>
              rw [brackets_plain (by simp [bracketOf_mark, hopen, hclose]), nest_plain hopen hclose]
              simp [nest, hopen, hclose]
  | _ =>
      rw [brackets_plain rfl]
      exact (and_iff_right rfl).symm

-- All that can be wrong with a token is a bracket.
theorem isBracket_of_mem_nest :
    ∀ error ∈ (nest text stack token start).2, error.isBracket = true := by
  cases token with
  | mark c =>
      unfold nest
      cases stack <;> dsimp only <;> split_ifs <;> simp [SyntaxError.isBracket, Fault.isBracket]
  | _ => exact fun _ he => absurd he List.not_mem_nil

theorem nest_eq_nil_iff : (nest text stack token start).2 = [] ↔
    ∀ error ∈ (nest text stack token start).2, error.isBracket = false := by
  refine ⟨fun h => by simp [h], fun h => List.eq_nil_iff_forall_not_mem.mpr fun error he => ?_⟩
  cases (h error he).symm.trans (isBracket_of_mem_nest error he)

-- Nothing is left open, or it is reported.
theorem completes_end_iff :
    Completes (stack.map Prod.fst) (brackets (settle text stack []).tokens) ↔
      ∀ error ∈ (settle text stack []).errors, error.isBracket = false := by
  rw [settle]
  cases stack <;> simp [brackets, completes_nil_iff, SyntaxError.isBracket, Fault.isBracket]

theorem completes_settle_token_iff :
    Completes (stack.map Prod.fst)
        (brackets (settle text stack (.token token start :: lexemes)).tokens) ↔
      (∀ error ∈ (nest text stack token start).2, error.isBracket = false) ∧
        Completes ((nest text stack token start).1.map Prod.fst)
          (brackets (settle text (nest text stack token start).1 lexemes).tokens) := by
  rw [settle, ← nest_eq_nil_iff]
  exact completes_token_iff

-- Brackets that are not reported nest, in every interpolation and around it.
theorem completes_settle (text : List Char) (stack : List (Char × List Char))
    (lexemes : List Lexeme)
    (h : ∀ error ∈ (settle text stack lexemes).errors, error.isBracket = false) :
    Completes (stack.map Prod.fst) (brackets (settle text stack lexemes).tokens) := by
  induction text, stack, lexemes using settle.induct
    (motive_2 := fun lexeme => (∀ error ∈ (settleInner lexeme).errors, error.isBracket = false) →
      Nested (brackets (settleInner lexeme).tokens)) with
  | case1 code inner start ih =>
      next hinner =>
      rw [settleInner] at hinner ⊢
      exact ih hinner
  | case2 token start => exact .nil
  | case3 fault start => exact .nil
  | case4 text stack => exact completes_end_iff.mpr h
  | case5 text stack token start rest stack' errors hnest ih =>
      rw [settle, hnest] at h
      obtain ⟨herrors, hrest⟩ := List.forall_mem_append.mp h
      rw [completes_settle_token_iff, hnest]
      exact ⟨herrors, ih hrest⟩
  | case6 text stack fault start rest ih =>
      rw [settle] at h ⊢
      exact ih (List.forall_mem_cons.mp h).2
  | case7 text stack code inner start rest ihinner ih =>
      rw [settle] at h ⊢
      obtain ⟨hinner, hrest⟩ := List.forall_mem_append.mp h
      dsimp only
      rw [brackets_plain rfl, brackets_append, brackets_plain rfl]
      exact (ih hrest).prepend (ihinner fun error he =>
        hinner (.inTemplate error _) (List.mem_map_of_mem he))

-- The converse for code without interpolations.
theorem completes_settle_iff (hflat : ∀ lexeme ∈ lexemes, lexeme.Flat) :
    Completes (stack.map Prod.fst) (brackets (settle text stack lexemes).tokens) ↔
      ∀ error ∈ (settle text stack lexemes).errors, error.isBracket = false := by
  induction lexemes generalizing stack with
  | nil => exact completes_end_iff
  | cons lexeme rest ih =>
      obtain ⟨hfirst, hrest⟩ := List.forall_mem_cons.mp hflat
      cases lexeme with
      | token token start =>
          rw [completes_settle_token_iff, ih hrest, ← List.forall_mem_append, settle]
      | fault fault start =>
          rw [settle, ih hrest, List.forall_mem_cons]
          exact (and_iff_right hfirst).symm
      | interpolation code inner start => exact hfirst.elim

end Stack

section Code

variable {fault : Fault}

theorem step_suffix (c : Char) (rest : List Char) : (step c rest).rest <:+ c :: rest := by
  cases hstep : step c rest with
  | skip after =>
      cases hstep ▸ taken_step c rest with
      | blank => exact List.suffix_cons c rest
      | comment _ hafter => exact hafter.trans (List.suffix_cons c rest)
  | token token after =>
      cases hstep ▸ taken_step c rest with
      | token hword => exact hword ▸ List.suffix_append _ after
  | fail fault => exact List.nil_suffix
  | template literal =>
      cases hstep ▸ taken_step c rest with
      | template => exact List.suffix_cons c rest

theorem markStep_ne_fail (c : Char) (rest : List Char) (fault : Fault) :
    markStep c rest ≠ .fail fault := by
  unfold markStep
  split <;> try split
  all_goals simp

-- Only comments and quoted texts fail as they are read.
theorem isBracket_of_step (h : step c rest = .fail fault) : fault.isBracket = false := by
  unfold step at h
  split at h
  · cases h
  split at h
  · cases h
  split at h
  · split at h <;> cases h
    rfl
  split at h
  · split at h <;> cases h
    rfl
  split at h
  · cases h
  split at h
  · cases h
  split at h
  · cases h
  · exact absurd h (markStep_ne_fail c rest fault)

theorem not_mem_step (htick : '\x60' ∉ c :: rest) : '\x60' ∉ (step c rest).rest :=
  fun hm => htick ((step_suffix c rest).subset hm)

-- By induction on the steps of the lexer, none of which begins a literal.
theorem flat_lexemes (h : '\x60' ∉ text) : ∀ lexeme ∈ lexemes text, lexeme.Flat := by
  induction text using @lexemes.induct _ fun _ _ => True with
  | case1 => simp [lexemes_nil]
  | case2 c rest after hstep ih =>
      have hrest := not_mem_step h
      rw [hstep] at hrest
      rw [lexemes_cons, hstep]
      exact ih hrest
  | case3 c rest token after hstep ih =>
      have hrest := not_mem_step h
      rw [hstep] at hrest
      rw [lexemes_cons, hstep]
      exact List.forall_mem_cons.mpr ⟨trivial, ih hrest⟩
  | case4 c rest fault hstep =>
      rw [lexemes_cons, hstep]
      exact List.forall_mem_singleton.mpr (isBracket_of_step hstep)
  | case5 c rest literal hstep ih =>
      cases hstep ▸ taken_step c rest with
      | template htick => exact absurd (htick ▸ List.mem_cons_self) h
  | _ => trivial

-- The brackets of accepted code nest, those of interpolations among them.
-- Without template literals, the brackets are accepted exactly if they nest.
theorem nested_tokenize (text : List Char) :
    ((tokenize text).errors = [] → Nested (brackets (tokenize text).tokens)) ∧
      ('\x60' ∉ text → ((∀ error ∈ (tokenize text).errors, error.isBracket = false) ↔
        Nested (brackets (tokenize text).tokens))) := by
  constructor
  · intro h
    exact completes_settle text [] (lexemes text) fun error he => by
      rw [tokenize] at h
      rw [h] at he
      cases he
  · intro h
    exact (completes_settle_iff (flat_lexemes h)).symm

-- A literal in a literal, and two pairs that cross.
theorem nested_tokenize_literals :
    let code := "f(`$\x7b`$\x7bA[0]\x7d` + g()\x7d`)".toList
    let crossed := "f([A)]".toList
    (tokenize code).errors = [] ∧
      brackets (tokenize code).tokens = ['(', '[', ']', '(', ')', ')'] ∧
      Nested (brackets (tokenize code).tokens) ∧
      '\x60' ∉ crossed ∧ brackets (tokenize crossed).tokens = ['(', '[', ')', ']'] ∧
      ¬Nested (brackets (tokenize crossed).tokens) := by
  intro code crossed
  have h : (tokenize code).errors = [] := by decide +kernel
  have htick : '\x60' ∉ crossed := by decide +kernel
  refine ⟨h, by decide +kernel, (nested_tokenize code).1 h, htick, by decide +kernel, fun k => ?_⟩
  exact absurd (((nested_tokenize crossed).2 htick).mpr k) (by decide +kernel)

-- Each of two interpolations has a bracket without a partner. As a whole they
-- nest.
example : let code := "`$\x7b(\x7d$\x7b)\x7d`".toList
    (tokenize code).errors = [.inTemplate (.found (.unclosed '(') 0) 0,
      .inTemplate (.found (.unexpected ')') 0) 0] ∧
    brackets (tokenize code).tokens = ['(', ')'] := by
  decide +kernel

end Code

end Recalc.Binding

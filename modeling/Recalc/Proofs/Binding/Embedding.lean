import Recalc.Proofs.Binding.Lexing
import Recalc.Proofs.Binding.Template

namespace Recalc.Binding

variable {c : Char} {text first second code rest after word : List Char} {token : Token}

section Balance

-- Quotes in the text end, and braces outside of them match.
inductive Balanced : List Char → Prop
  | nil : Balanced []
  | plain (text : List Char) {rest : List Char}
      (h : ∀ c ∈ text, isQuote c = false ∧ isBrace c = false) (hrest : Balanced rest) :
      Balanced (text ++ rest)
  | quoted {quote : Char} {text name after : List Char} (hquote : isQuote quote = true)
      (h : Path.quotedName quote text = some (name, after)) (hafter : Balanced after) :
      Balanced (quote :: text)
  | braces {inner rest : List Char} (hinner : Balanced inner) (hrest : Balanced rest) :
      Balanced ('\x7b' :: (inner ++ '\x7d' :: rest))

-- The search passes over the text, with so many braces open before it and so
-- many after it.
def Shifts (text : List Char) (opened left : Nat) : Prop :=
  ∀ doubled depth rest, splitClose doubled none (depth + opened) (text ++ rest) =
    text.foldr keep (splitClose doubled none (depth + left) rest)

theorem Passes.shifts (h : Passes text) (opened : Nat) : Shifts text opened opened :=
  fun doubled depth rest => h doubled (depth + opened) rest

theorem Shifts.passes (h : Shifts text 0 0) : Passes text := h

theorem Shifts.append {opened between left : Nat} (h : Shifts first opened between)
    (k : Shifts second between left) : Shifts (first ++ second) opened left := by
  intro doubled depth rest
  rw [List.append_assoc, h, k, List.foldr_append]

theorem shifts_open (opened : Nat) : Shifts ['\x7b'] opened (opened + 1) := by
  intro doubled depth rest
  rw [List.singleton_append, splitClose.eq_def]
  rfl

theorem shifts_close (opened : Nat) : Shifts ['\x7d'] (opened + 1) opened := by
  intro doubled depth rest
  rw [List.singleton_append, splitClose.eq_def]
  rfl

theorem Balanced.passes (h : Balanced text) : Passes text := by
  induction h with
  | nil => exact fun _ _ _ => rfl
  | plain text h _ ih => exact (Passes.of_plain h).append ih
  | quoted hquote h _ ih =>
      obtain ⟨inside, rfl, hinside⟩ := Passes.of_quoted hquote h
      exact hinside.append ih
  | @braces inner rest _ _ hinner hrest =>
      have hbraces : Passes (['\x7b'] ++ inner ++ ['\x7d'] ++ rest) :=
        ((((shifts_open 0).append (hinner.shifts 1)).append (shifts_close 0)).append
          (hrest.shifts 0)).passes
      simpa using hbraces

end Balance

section Words

-- A token is written as a brace or in a way that the search passes over.
inductive Written : Token → List Char → Prop
  | brace {c : Char} (h : isBrace c = true) : Written (.mark c) [c]
  | other {token : Token} {word : List Char} (hword : Passes word)
      (h : ∀ c, token = .mark c → isBrace c = false) : Written token word

theorem plain_of_continuesNumber (h : continuesNumber c = true) :
    isQuote c = false ∧ isBrace c = false := by
  simp only [continuesNumber, Bool.or_eq_true, beq_iff_eq] at h
  rcases h with (h | rfl) | rfl
  · exact plain_of_continues (by simp [Text.continuesIdentifier, h])
  · decide
  · decide

theorem continuesNumber_of_starts (h : startsNumber (c :: rest) = true) :
    continuesNumber c = true := by
  simp only [startsNumber, Bool.or_eq_true, Bool.and_eq_true, beq_iff_eq] at h
  rcases h with h | ⟨rfl, -⟩
  · simp [continuesNumber, Char.isAlphanum, h]
  · decide

-- A run of characters of a class that holds neither quotes nor braces.
theorem passes_run {p : Char → Bool} (hc : isQuote c = false ∧ isBrace c = false)
    (hp : ∀ d, p d = true → isQuote d = false ∧ isBrace d = false) (rest : List Char) :
    ∃ word, c :: rest = word ++ rest.dropWhile p ∧ Passes word := by
  refine ⟨c :: rest.takeWhile p, ?_, .of_plain (List.forall_mem_cons.mpr ⟨hc, fun d hd => ?_⟩)⟩
  · rw [List.cons_append, List.takeWhile_append_dropWhile]
  · exact hp d (List.all_eq_true.mp List.all_takeWhile d hd)

theorem quotedName_of_quotedText {quote : Char} {value : List Char}
    (h : quotedText quote text = some (value, after)) :
    Path.quotedName quote text = some (value, after) := by
  fun_induction quotedText quote text generalizing value after with
  | case1 => cases h
  | case2 => cases h
  | case3 c rest ih =>
      obtain ⟨inner, rfl, hrest⟩ := keep_eq_some h
      rw [Path.quotedName, ih hrest]
      rfl
  | case4 => cases h
  | case5 rest hslash hescape _ =>
      cases h
      rw [Path.quotedName.eq_4 _ _ _ hslash hescape, if_pos rfl]
  | case6 c rest hslash hescape _ hquote ih =>
      obtain ⟨inner, rfl, hrest⟩ := keep_eq_some h
      rw [Path.quotedName.eq_4 _ _ _ hslash hescape, if_neg hquote, ih hrest]
      rfl

theorem afterLine_suffix (text : List Char) : afterLine text <:+ text := by
  fun_induction afterLine text with
  | case1 => exact List.suffix_rfl
  | case2 rest => exact List.suffix_cons _ _
  | case3 c rest _ ih => exact ih.trans (List.suffix_cons c rest)

theorem afterBlock_suffix (h : afterBlock text = some after) : after <:+ text := by
  fun_induction afterBlock text with
  | case1 rest =>
      cases h
      exact List.suffix_append ['*', '/'] after
  | case2 c rest _ ih => exact (ih h).trans (List.suffix_cons c rest)
  | case3 => cases h

-- What a step of the lexer takes off the text that begins with a character.
inductive Taken (c : Char) (rest : List Char) : Step → Prop
  | blank (h : isCodeSpace c = true) : Taken c rest (.skip rest)
  | comment {after : List Char} (h : isCodeSpace c = false) (hafter : after <:+ rest) :
      Taken c rest (.skip after)
  | token {token : Token} {word after : List Char} (h : c :: rest = word ++ after)
      (hword : Written token word) : Taken c rest (.token token after)
  | fail (fault : Fault) : Taken c rest (.fail fault)
  | template (h : c = '\x60') : Taken c rest (.template rest)

theorem Taken.marks (marks : List Char) (h : c :: rest = marks ++ after)
    (hmarks : ∀ d ∈ marks, isQuote d = false ∧ isBrace d = false)
    (htoken : ∀ d, token = .mark d → isBrace d = false) : Taken c rest (.token token after) :=
  .token h (.other (.of_plain hmarks) htoken)

theorem taken_markStep (hquote : isQuote c = false) (rest : List Char) :
    Taken c rest (markStep c rest) := by
  unfold markStep
  split
  · exact .marks ['.', '.', '.'] rfl (by simp [isQuote, isBrace]) fun _ hd => by cases hd
  · exact .marks ['=', '>'] rfl (by simp [isQuote, isBrace]) fun _ hd => by cases hd
  · split
    · refine .marks ['?'] rfl (by simp [isQuote, isBrace]) fun d hd => ?_
      cases hd
      rfl
    · exact .marks ['?', '.'] rfl (by simp [isQuote, isBrace]) fun _ hd => by cases hd
  · cases hbrace : isBrace c with
    | true => exact .token (List.singleton_append).symm (.brace hbrace)
    | false =>
        refine .marks [c] rfl (List.forall_mem_singleton.mpr ⟨hquote, hbrace⟩) fun d hd => ?_
        cases hd
        exact hbrace

theorem taken_step (c : Char) (rest : List Char) : Taken c rest (step c rest) := by
  unfold step
  split
  · next hspace => exact .blank hspace
  next hspace =>
  rw [Bool.not_eq_true] at hspace
  split
  · exact .comment hspace (afterLine_suffix rest)
  split
  · split
    · next after hblock =>
      exact .comment hspace ((afterBlock_suffix hblock).trans (List.tail_suffix rest))
    · exact .fail _
  split
  · next hquote =>
    split
    · next value after hvalue =>
      have hc : isQuote c = true := by rcases hquote with rfl | rfl <;> decide
      obtain ⟨inside, rfl, hinside⟩ := Passes.of_quoted hc (quotedName_of_quotedText hvalue)
      exact .token rfl (.other hinside fun _ hd => by cases hd)
    · exact .fail _
  next hquote =>
  split
  · next htick => exact .template htick
  next htick =>
  split
  · next hstart =>
    have hc := plain_of_continues (Text.continuesIdentifier_of_starts hstart)
    obtain ⟨word, hword, hpasses⟩ := passes_run hc (fun _ => plain_of_continues) rest
    exact .token hword (.other hpasses fun _ hd => by cases hd)
  split
  · next hstart =>
    have hc := plain_of_continuesNumber (continuesNumber_of_starts hstart)
    obtain ⟨word, hword, hpasses⟩ := passes_run hc (fun _ => plain_of_continuesNumber) rest
    exact .token hword (.other hpasses fun _ hd => by cases hd)
  · obtain ⟨hdouble, hsingle⟩ := not_or.mp hquote
    exact taken_markStep (by simp [isQuote, hdouble, hsingle, htick]) rest

-- The braces among open brackets.
def braces (brackets : List (Char × List Char)) : Nat :=
  brackets.countP fun bracket => bracket.1 == '\x7b'

variable {brackets : List (Char × List Char)} {start : List Char}

theorem braces_cons (bracket : Char) (brackets : List (Char × List Char)) :
    braces ((bracket, start) :: brackets) =
      braces brackets + if bracket = '\x7b' then 1 else 0 := by
  simp [braces, List.countP_cons]

-- A closing bracket that is accepted takes its partner off.
theorem nest_closing (hopen : isOpening c = false) (hclose : isClosing c = true)
    (h : (nest text brackets (.mark c) start).2 = []) :
    ∃ before, brackets = (opening c, before) :: (nest text brackets (.mark c) start).1 := by
  unfold nest at h ⊢
  simp only [hopen, hclose, Bool.false_eq_true, if_false, if_true] at h ⊢
  cases brackets with
  | nil => cases h
  | cons bracket others =>
      obtain ⟨bracket, before⟩ := bracket
      dsimp only at h ⊢
      split at h
      · next hbracket =>
        rw [if_pos hbracket, hbracket]
        exact ⟨before, rfl⟩
      · cases h

theorem nest_opening (hopen : isOpening c = true) :
    (nest text brackets (.mark c) start).1 = (c, start) :: brackets := by
  unfold nest
  dsimp only
  rw [if_pos hopen]

theorem nest_plain (hopen : isOpening c = false) (hclose : isClosing c = false) :
    (nest text brackets (.mark c) start).1 = brackets := by
  unfold nest
  simp only [hopen, hclose, Bool.false_eq_true, if_false]

-- Tokens other than braces leave the braces as they are.
theorem braces_nest (htoken : ∀ c, token = .mark c → isBrace c = false)
    (h : (nest text brackets token start).2 = []) :
    braces (nest text brackets token start).1 = braces brackets := by
  cases token with
  | mark c =>
      have hc := htoken c rfl
      simp only [isBrace, Bool.or_eq_false_iff, beq_eq_false_iff_ne] at hc
      cases hopen : isOpening c with
      | true => rw [nest_opening hopen, braces_cons, if_neg hc.1, Nat.add_zero]
      | false =>
          cases hclose : isClosing c with
          | false => rw [nest_plain hopen hclose]
          | true =>
              obtain ⟨before, hbrackets⟩ := nest_closing hopen hclose h
              have hpartner : opening c ≠ '\x7b' := by
                simp only [isClosing, Bool.or_eq_true, beq_iff_eq, hc.2, or_false] at hclose
                rcases hclose with rfl | rfl <;> decide
              conv_rhs => rw [hbrackets]
              rw [braces_cons, if_neg hpartner, Nat.add_zero]
  | _ => rfl

-- The search counts the braces that the lexer holds open.
theorem Written.shifts (hword : Written token word)
    (h : (nest text brackets token start).2 = []) :
    Shifts word (braces brackets) (braces (nest text brackets token start).1) := by
  cases hword with
  | @brace c hc =>
      simp only [isBrace, Bool.or_eq_true, beq_iff_eq] at hc
      rcases hc with rfl | rfl
      · rw [nest_opening (by decide), braces_cons, if_pos rfl]
        exact shifts_open _
      · obtain ⟨before, hbrackets⟩ := nest_closing (by decide) (by decide) h
        have hbraces := congrArg braces hbrackets
        rw [braces_cons, if_pos (by decide)] at hbraces
        rw [hbraces]
        exact shifts_close _
  | other hword htoken =>
      rw [braces_nest htoken h]
      exact hword.shifts _

end Words

section Asides

-- The text behind a template literal, as the lexer finds its end.
def afterLiteral : List Char → Option (List Char)
  | [] => none
  | '\\' :: [] => none
  | '\\' :: _ :: rest => afterLiteral rest
  | '\x60' :: rest => some rest
  | '$' :: '\x7b' :: rest =>
    match _hclose : splitClose false none 0 rest with
    | some (_, after) => afterLiteral after
    | none => none
  | _ :: rest => afterLiteral rest
termination_by text => text.length
decreasing_by
  all_goals
    simp only [List.length_cons]
    try have := splitClose_length _hclose
    omega

theorem keep_suffix {split : Option (List Char × List Char)}
    (h : keep c split = some (code, after))
    (hsplit : ∀ {inner}, split = some (inner, after) → after <:+ rest) : after <:+ c :: rest := by
  obtain ⟨inner, -, he⟩ := keep_eq_some h
  exact (hsplit he).trans (List.suffix_cons c rest)

theorem splitClose_suffix {doubled : Bool} {quote : Option Char} {depth : Nat}
    (h : splitClose doubled quote depth text = some (code, after)) : after <:+ text := by
  fun_induction splitClose doubled quote depth text generalizing code after with
  | case1 => cases h
  | case2 => cases h
  | case3 depth q d rest ih => exact keep_suffix h fun hrest => keep_suffix hrest ih
  | case4 depth c rest q _ ih => exact keep_suffix h ih
  | case5 depth c rest _ ih => exact keep_suffix h ih
  | case6 depth rest _ ih => exact keep_suffix h ih
  | case7 rest depth _ _ ih => exact keep_suffix h ih
  | case8 rest =>
      cases h
      exact List.suffix_cons _ _
  | case9 rest =>
      cases h
      exact (List.tail_suffix rest).trans (List.suffix_cons _ _)
  | case10 _ _ _ _ _ ih => exact keep_suffix h ih
  | case11 depth c rest _ _ _ ih => exact keep_suffix h ih

theorem afterLiteral_suffix (h : afterLiteral text = some after) : after <:+ text := by
  fun_induction afterLiteral text with
  | case1 => cases h
  | case2 => cases h
  | case3 d rest ih => exact (ih h).trans (List.suffix_append ['\\', d] rest)
  | case4 rest =>
      cases h
      exact List.suffix_cons _ _
  | case5 rest code after' hclose ih =>
      exact ((ih h).trans (splitClose_suffix hclose)).trans (List.suffix_append ['$', '\x7b'] rest)
  | case6 => cases h
  | case7 d rest _ _ _ _ ih => exact (ih h).trans (List.suffix_cons d rest)

-- What stands before a suffix of a text.
def upTo (text after : List Char) : List Char := text.take (text.length - after.length)

theorem upTo_append (before after : List Char) : upTo (before ++ after) after = before := by
  simp [upTo]

-- The first backtick in a template literal is its last one.
def Undivided (literal after : List Char) : Prop :=
  (Path.quotedName '\x60' literal).map Prod.snd = some after

instance (literal after : List Char) : Decidable (Undivided literal after) :=
  inferInstanceAs (Decidable (_ = _))

-- What the lexer passes over as a whole and the search does not: the comments
-- of a code, and its template literals with backticks in interpolations.
def asides : List Char → List (List Char)
  | [] => []
  | c :: rest =>
    match _hstep : step c rest with
    | .skip after =>
      if isCodeSpace c then asides after else upTo (c :: rest) after :: asides after
    | .token _ after => asides after
    | .fail _ => []
    | .template literal =>
      match _hend : afterLiteral literal with
      | none => []
      | some after =>
        if Undivided literal after then asides after
        else upTo (c :: rest) after :: asides after
termination_by text => text.length
decreasing_by
  all_goals
    have := step_rest_length c rest
    rw [_hstep] at this
    simp only [Step.rest, List.length_cons] at this ⊢
    try have := (afterLiteral_suffix _hend).length_le
    omega

theorem settle_token {lexemes : List Lexeme}
    (h : (settle text brackets (.token token start :: lexemes)).errors = []) :
    (nest text brackets token start).2 = [] ∧
      (settle text (nest text brackets token start).1 lexemes).errors = [] := by
  rw [settle] at h
  exact List.append_eq_nil_iff.mp h

theorem settle_fault_ne_nil (fault : Fault) (lexemes : List Lexeme) :
    (settle text brackets (.fault fault start :: lexemes)).errors ≠ [] := by
  rw [settle]
  exact List.cons_ne_nil _ _

theorem settle_interpolation {inner lexemes : List Lexeme}
    (h : (settle text brackets (.interpolation code inner start :: lexemes)).errors = []) :
    (settle text brackets lexemes).errors = [] := by
  rw [settle] at h
  exact (List.append_eq_nil_iff.mp h).2

theorem settle_nil (h : (settle text brackets []).errors = []) : brackets = [] := by
  rw [settle] at h
  exact List.reverse_eq_nil_iff.mp (List.map_eq_nil_iff.mp h)

-- A template literal in which nothing is wrong ends, and nothing is wrong
-- behind it.
theorem settle_templateLexemes {literal : List Char}
    (h : (settle text brackets (templateLexemes start literal)).errors = []) :
    ∃ after, afterLiteral literal = some after ∧
      (settle text brackets (lexemes after)).errors = [] := by
  fun_induction afterLiteral literal with
  | case1 =>
      rw [templateLexemes] at h
      exact absurd h (settle_fault_ne_nil _ _)
  | case2 =>
      rw [templateLexemes] at h
      exact absurd h (settle_fault_ne_nil _ _)
  | case3 d rest ih =>
      rw [templateLexemes] at h
      exact ih h
  | case4 rest =>
      rw [templateLexemes] at h
      exact ⟨rest, rfl, h⟩
  | case5 rest code after hclose ih =>
      rw [templateLexemes_open, hclose] at h
      exact ih (settle_interpolation h)
  | case6 rest hclose =>
      rw [templateLexemes_open, hclose] at h
      exact absurd h (settle_fault_ne_nil _ _)
  | case7 d rest hlast hescape htick hopen ih =>
      rw [templateLexemes.eq_6 _ _ _ hlast hescape htick hopen] at h
      exact ih h

theorem plain_of_isCodeSpace (h : isCodeSpace c = true) : isQuote c = false ∧ isBrace c = false := by
  simp only [isCodeSpace, Bool.or_eq_true, beq_iff_eq] at h
  rcases h with (((rfl | rfl) | rfl) | rfl) | rfl <;> decide

-- A balanced beginning of a text makes no difference.
theorem Shifts.of_balanced {opened left : Nat} (hafter : after <:+ text)
    (h : Balanced (upTo text after)) (k : Shifts after opened left) : Shifts text opened left := by
  obtain ⟨before, rfl⟩ := hafter
  rw [upTo_append] at h
  exact (h.passes.shifts opened).append k

theorem Shifts.of_undivided {opened left : Nat} (h : Undivided text after)
    (k : Shifts after opened left) : Shifts ('\x60' :: text) opened left := by
  obtain ⟨⟨name, after⟩, hname, rfl⟩ := Option.map_eq_some_iff.mp h
  obtain ⟨inside, rfl, hinside⟩ := Passes.of_quoted (by decide) hname
  exact (hinside.shifts opened).append k

-- By induction on the steps of the lexer. The brackets that it holds open tell
-- how deep in braces the search is.
theorem shifts_of_clean (h : (settle text brackets (lexemes code)).errors = [])
    (hasides : ∀ aside ∈ asides code, Balanced aside) : Shifts code (braces brackets) 0 := by
  fun_induction asides code generalizing brackets with
  | case1 =>
      rw [lexemes_nil] at h
      rw [settle_nil h]
      exact fun _ _ _ => rfl
  | case2 c rest after hstep hspace ih =>
      rw [lexemes_cons, hstep] at h
      have hc := Passes.of_plain (List.forall_mem_singleton.mpr (plain_of_isCodeSpace hspace))
      cases hstep ▸ taken_step c rest with
      | blank => exact (hc.shifts _).append (ih h hasides)
      | comment hother => cases hspace.symm.trans hother
  | case3 c rest after hstep hspace ih =>
      rw [lexemes_cons, hstep] at h
      obtain ⟨haside, hasides⟩ := List.forall_mem_cons.mp hasides
      cases hstep ▸ taken_step c rest with
      | blank hblank => exact absurd hblank hspace
      | comment _ hafter =>
          exact .of_balanced (hafter.trans (List.suffix_cons c rest)) haside (ih h hasides)
  | case4 c rest token after hstep ih =>
      rw [lexemes_cons, hstep] at h
      obtain ⟨hnest, hafter⟩ := settle_token h
      cases hstep ▸ taken_step c rest with
      | token hword hwritten =>
          rw [hword]
          exact (hwritten.shifts hnest).append (ih hafter hasides)
  | case5 c rest fault hstep =>
      rw [lexemes_cons, hstep] at h
      exact absurd h (settle_fault_ne_nil _ _)
  | case6 c rest literal hstep hend =>
      rw [lexemes_cons, hstep] at h
      obtain ⟨after, hafter, -⟩ := settle_templateLexemes h
      cases hend.symm.trans hafter
  | case7 c rest literal hstep after hend hundivided ih =>
      rw [lexemes_cons, hstep] at h
      obtain ⟨_, hafter, hrest⟩ := settle_templateLexemes h
      cases hend.symm.trans hafter
      cases hstep ▸ taken_step c rest with
      | template htick =>
          rw [htick]
          exact .of_undivided hundivided (ih hrest hasides)
  | case8 c rest literal hstep after hend _ ih =>
      rw [lexemes_cons, hstep] at h
      obtain ⟨_, hafter, hrest⟩ := settle_templateLexemes h
      cases hend.symm.trans hafter
      obtain ⟨haside, hasides⟩ := List.forall_mem_cons.mp hasides
      cases hstep ▸ taken_step c rest with
      | template =>
          have hsuffix := (afterLiteral_suffix hend).trans (List.suffix_cons c rest)
          exact .of_balanced hsuffix haside (ih hrest hasides)

theorem passes_of_clean (h : (tokenize code).errors = [])
    (hasides : ∀ aside ∈ asides code, Balanced aside) : Passes code :=
  have hshifts : Shifts code (braces []) 0 := shifts_of_clean h hasides
  hshifts.passes

end Asides

section Template

theorem toList_inBraces (code : String) :
    ("\x7b\x7b" ++ code ++ "\x7d\x7d").toList = inBraces code.toList := by
  simp [inBraces]

-- Code that the lexer accepts is the one segment of a template and is read
-- there as on its own, if its comments and divided literals are balanced.
theorem reads_alike_in_braces {code : String} (h : (tokenize code.toList).errors = [])
    (hasides : ∀ aside ∈ asides code.toList, Balanced aside) :
    let template := "\x7b\x7b" ++ code ++ "\x7d\x7d"
    (segments template.toList).codes = [code.toList] ∧
      segmentErrors template.toList (segments template.toList) = [] ∧
      parse .template template = parse .code code := by
  intro template
  have hpasses := passes_of_clean h hasides
  have htemplate : template.toList = inBraces code.toList := toList_inBraces code
  rw [parse, parse, htemplate, hpasses.segments, hpasses.parseTemplate]
  exact ⟨rfl, rfl, rfl⟩

-- A comment with a quoted brace in braces, and a literal in a literal.
theorem reads_nested_in_braces :
    let code := "/*\x7b'\x7d'\x7d*/`$\x7b`$\x7bA.b\x7d`\x7d`"
    let template := "\x7b\x7b" ++ code ++ "\x7d\x7d"
    (tokenize code.toList).errors = [] ∧ (∀ aside ∈ asides code.toList, Balanced aside) ∧
      (segments template.toList).codes = [code.toList] ∧
      (parse .template template).references = [⟨⟨"A", [.key "b"]⟩, false⟩] := by
  intro code template
  have h : (tokenize code.toList).errors = [] := by decide +kernel
  have hasides : asides code.toList =
      ["/*\x7b'\x7d'\x7d*/".toList, "`$\x7b`$\x7bA.b\x7d`\x7d`".toList] := by decide +kernel
  have hmarks : ∀ c ∈ ['/', '*', '$', 'A', '.', 'b'], isQuote c = false ∧ isBrace c = false := by
    simp [isQuote, isBrace]
  have hplain : ∀ text, text ⊆ ['/', '*', '$', 'A', '.', 'b'] → ∀ {rest}, Balanced rest →
      Balanced (text ++ rest) :=
    fun text hsubset _ => .plain text fun c hc => hmarks c (hsubset hc)
  have hcomment : Balanced "/*\x7b'\x7d'\x7d*/".toList := by
    have hquoted : Balanced ['\'', '\x7d', '\''] := .quoted (by decide) rfl .nil
    exact hplain ['/', '*'] (by simp) (.braces hquoted (hplain ['*', '/'] (by simp) .nil))
  have hliteral : Balanced "`$\x7b`$\x7bA.b\x7d`\x7d`".toList := by
    have hname : Balanced ['A', '.', 'b'] := hplain ['A', '.', 'b'] (by simp) .nil
    have hquoted : Balanced ['\x60', '\x7d', '\x60'] := .quoted (by decide) rfl .nil
    exact .quoted (by decide) rfl (hplain ['$'] (by simp) (.braces hname hquoted))
  have hbalanced : ∀ aside ∈ asides code.toList, Balanced aside := by
    rw [hasides]
    exact List.forall_mem_cons.mpr ⟨hcomment, List.forall_mem_singleton.mpr hliteral⟩
  obtain ⟨hcodes, -, hparse⟩ := reads_alike_in_braces h hbalanced
  exact ⟨h, hbalanced, hcodes, (congrArg Parsed.references hparse).trans (by decide +kernel)⟩

-- An apostrophe in a comment hides the end of the segment.
theorem lost_behind_apostrophe :
    let code := "/* it's */ A.b"
    let template := "\x7b\x7b" ++ code ++ "\x7d\x7d"
    parse .code code = ⟨[⟨⟨"A", [.key "b"]⟩, false⟩], []⟩ ∧
      (tokenize code.toList).errors = [] ∧ (segments template.toList).codes = [] ∧
      segmentErrors template.toList (segments template.toList) =
        [.found .unterminatedSegment 0] ∧
      (parse .template template).references = [] := by
  decide +kernel

-- The search takes the inner of two literals for the end of the outer one.
example : (tokenize "`$\x7b`\x7d\x7d`\x7d`".toList).errors = [] ∧
    (segments "\x7b\x7b`$\x7b`\x7d\x7d`\x7d`\x7d\x7d".toList).codes = ["`$\x7b`".toList] := by
  decide +kernel

end Template

end Recalc.Binding

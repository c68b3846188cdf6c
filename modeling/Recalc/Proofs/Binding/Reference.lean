import Recalc.Binding.Parsed
import Recalc.Proofs.Path.Plain

namespace Recalc.Binding

-- Names in code hold no dot and no bracket.
def Token.Named : Token → Prop
  | .ident name => ∀ c ∈ name.toList, Path.startsAccessor c = false
  | _ => True

inductive Lexeme.Named : Lexeme → Prop
  | token {token : Token} {start : List Char} (h : token.Named) : Named (.token token start)
  | fault (fault : Fault) (start : List Char) : Named (.fault fault start)
  | interpolation {code : List Char} {inner : List Lexeme} {start : List Char}
      (h : ∀ lexeme ∈ inner, lexeme.Named) : Named (.interpolation code inner start)

-- All names in lexemes, those of interpolations among them.
def AllNamed (lexemes : List Lexeme) : Prop := ∀ lexeme ∈ lexemes, lexeme.Named

-- An interpolation has names only, if its lexemes have.
def SettlesNamed (lexeme : Lexeme) : Prop :=
  lexeme.Named → ∀ token ∈ (settleInner lexeme).tokens, token.Named

theorem named_markStep {c : Char} {rest after : List Char} {token : Token}
    (h : markStep c rest = .token token after) : token.Named := by
  unfold markStep at h
  split at h
  · cases h
    trivial
  · cases h
    trivial
  · split at h <;> (cases h; trivial)
  · cases h
    trivial

theorem named_step {c : Char} {rest after : List Char} {token : Token}
    (h : step c rest = .token token after) : token.Named := by
  unfold step at h
  split at h
  · cases h
  split at h
  · cases h
  split at h
  · split at h <;> cases h
  split at h
  · split at h <;> cases h
    trivial
  split at h
  · cases h
  split at h
  · next hstart =>
    cases h
    intro d hd
    rw [String.toList_ofList] at hd
    refine Segment.startsAccessor_of_continues ?_
    rcases List.mem_cons.mp hd with rfl | hd
    · exact Text.continuesIdentifier_of_starts hstart
    · exact List.all_eq_true.mp List.all_takeWhile d hd
  split at h
  · cases h
    trivial
  · exact named_markStep h

theorem lexemes_cons (c : Char) (rest : List Char) :
    lexemes (c :: rest) =
      match step c rest with
      | .skip after => lexemes after
      | .token token after => .token token (c :: rest) :: lexemes after
      | .fail fault => [.fault fault (c :: rest)]
      | .template literal => templateLexemes (c :: rest) literal := by
  rw [lexemes]
  split <;> simp_all

theorem templateLexemes_open (start rest : List Char) :
    templateLexemes start ('$' :: '\x7b' :: rest) =
      match splitClose false none 0 rest with
      | some (code, after) =>
        .interpolation code (lexemes code) start :: templateLexemes start after
      | none => [.fault .unterminatedInterpolation ('$' :: '\x7b' :: rest)] := by
  rw [templateLexemes]
  split <;> simp_all

theorem allNamed_lexemes (text : List Char) : AllNamed (lexemes text) := by
  induction text using @lexemes.induct _ fun start text => AllNamed (templateLexemes start text) with
  | case1 =>
      rw [lexemes]
      exact fun lexeme hl => absurd hl List.not_mem_nil
  | case2 c rest after hstep ih =>
      rw [lexemes_cons, hstep]
      exact ih
  | case3 c rest token after hstep ih =>
      rw [lexemes_cons, hstep]
      exact List.forall_mem_cons.mpr ⟨.token (named_step hstep), ih⟩
  | case4 c rest fault hstep =>
      rw [lexemes_cons, hstep]
      exact List.forall_mem_singleton.mpr (.fault fault _)
  | case5 c rest literal hstep ih =>
      rw [lexemes_cons, hstep]
      exact ih
  | case6 start =>
      rw [templateLexemes]
      exact List.forall_mem_singleton.mpr (.fault _ start)
  | case7 start =>
      rw [templateLexemes]
      exact List.forall_mem_singleton.mpr (.fault _ start)
  | case8 start c rest ih =>
      rw [templateLexemes]
      exact ih
  | case9 start rest ih =>
      rw [templateLexemes]
      exact ih
  | case10 start rest code after hclose ihcode ih =>
      rw [templateLexemes_open, hclose]
      exact List.forall_mem_cons.mpr ⟨.interpolation ihcode, ih⟩
  | case11 start rest hclose =>
      rw [templateLexemes_open, hclose]
      exact List.forall_mem_singleton.mpr (.fault _ _)
  | case12 start c rest hslash hescape htick hopen ih =>
      rw [templateLexemes.eq_6 _ _ _ hslash hescape htick hopen]
      exact ih

theorem named_settle (text : List Char) (brackets : List (Char × List Char))
    (lexemes : List Lexeme) (h : AllNamed lexemes) :
    ∀ token ∈ (settle text brackets lexemes).tokens, token.Named := by
  induction text, brackets, lexemes using settle.induct
    (motive_2 := SettlesNamed) with
  | case1 code inner start ih =>
      intro hn
      rw [settleInner]
      cases hn with
      | interpolation hinner => exact ih hinner
  | case2 token start => exact fun _ token ht => absurd ht List.not_mem_nil
  | case3 fault start => exact fun _ token ht => absurd ht List.not_mem_nil
  | case4 text brackets =>
      rw [settle]
      exact fun token ht => absurd ht List.not_mem_nil
  | case5 text brackets token start rest brackets' errors hnest ih =>
      obtain ⟨hfirst, hrest⟩ := List.forall_mem_cons.mp h
      rw [settle, hnest]
      cases hfirst with
      | token hfirst => exact List.forall_mem_cons.mpr ⟨hfirst, ih hrest⟩
  | case6 text brackets fault start rest ih =>
      rw [settle]
      exact ih (List.forall_mem_cons.mp h).2
  | case7 text brackets code inner start rest ihinner ih =>
      obtain ⟨hfirst, hrest⟩ := List.forall_mem_cons.mp h
      rw [settle]
      refine List.forall_mem_cons.mpr ⟨trivial, List.forall_mem_append.mpr ⟨ihinner hfirst, ?_⟩⟩
      exact List.forall_mem_cons.mpr ⟨trivial, ih hrest⟩

theorem named_tokenize (text : List Char) : ∀ token ∈ (tokenize text).tokens, token.Named :=
  named_settle text [] (lexemes text) (allNamed_lexemes text)

theorem entity_follow (chain : Path) (tokens : List Token) :
    (follow chain tokens).1.entity = chain.entity := by
  fun_induction follow chain tokens with
  | case1 chain key rest ih => exact ih
  | case2 chain key rest ih => exact ih
  | case3 chain key rest ih => exact ih
  | case4 chain digits rest _ ih => exact ih
  | case5 => rfl
  | case6 => rfl

theorem plain_references (names : List String) (previous : Option Token) {tokens : List Token}
    (h : ∀ token ∈ tokens, token.Named) :
    ∀ reference ∈ references names previous tokens, reference.chain.Plain := by
  fun_induction references names previous tokens with
  | case1 => exact fun reference hr => absurd hr List.not_mem_nil
  | case2 previous name rest later hreference ih =>
      obtain ⟨hname, hrest⟩ := List.forall_mem_cons.mp h
      refine List.forall_mem_cons.mpr ⟨?_, ih hrest⟩
      exact Path.plain_of_entity_eq (show (Path.ofEntity name).Plain from hname) (entity_follow _ _)
  | case3 previous name rest later _ ih => exact ih (List.forall_mem_cons.mp h).2
  | case4 previous token rest _ ih => exact ih (List.forall_mem_cons.mp h).2

theorem plain_parseCode (text : List Char) :
    ∀ reference ∈ (parseCode text).references, reference.chain.Plain :=
  plain_references _ none (named_tokenize text)

theorem plain_parse (form : Form) (text : String) :
    ∀ reference ∈ (parse form text).references, reference.chain.Plain := by
  cases form with
  | code => exact plain_parseCode text.toList
  | template =>
      refine List.foldlRecOn _ _
        (motive := fun parsed : Parsed => ∀ reference ∈ parsed.references, reference.chain.Plain)
        (fun reference hr => absurd hr List.not_mem_nil) fun parsed hp code hcode => ?_
      obtain ⟨text, _, rfl⟩ := List.mem_map.mp hcode
      exact List.forall_mem_append.mpr ⟨hp, plain_parseCode text⟩

end Recalc.Binding

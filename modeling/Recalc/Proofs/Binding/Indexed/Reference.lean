import Recalc.Proofs.Binding.Indexed.Token

namespace Recalc.Binding.Indexed

variable {tokens before rest : List Token} {token previous : Token} {depth : Nat}
  {names : List String} {chain : Path}

section Definitions

-- The token before an index. None is before the first.
def tokenBefore (tokens : List Token) : Nat → Option Token
  | 0 => none
  | index + 1 => tokens[index]?

-- The names bound from an index on, in so many brackets. A name has a token
-- before it.
def namesInside (tokens : List Token) (depth index : Nat) : Except Trap (List String) :=
  if _h : index < tokens.length then
    match tokens[index] with
    | .mark c =>
      if isOpening c then namesInside tokens (depth + 1) (index + 1)
      else if isClosing c then do
        let depth ← countDown depth
        if depth = 0 then return []
        else namesInside tokens depth (index + 1)
      else namesInside tokens depth (index + 1)
    | .ident name => do
      let before ← countDown index
      let later ← namesInside tokens depth (index + 1)
      if tokens[before]?.any bindsAfter && bindsBefore tokens[index + 1]? && !isKeyword name then
        return name :: later
      else return later
    | _ => namesInside tokens depth (index + 1)
  else return []
termination_by tokens.length - index

def groupNames (tokens : List Token) (start : Nat) : Except Trap (List String) :=
  match tokens[start]? with
  | some (.mark c) => if isOpening c then namesInside tokens 0 start else return []
  | _ => return []

-- The index of the parenthesis that opens, among so many tokens, the last of
-- them first.
def openOf (tokens : List Token) (depth : Nat) : Nat → Except Trap (Option Nat)
  | 0 => return none
  | index + 1 =>
    match tokens[index]? with
    | none => .error (.index index)
    | some (.mark ')') => openOf tokens (depth + 1) index
    | some (.mark '(') => do
      let depth ← countDown depth
      if depth = 0 then return some index
      else openOf tokens depth index
    | some _ => openOf tokens depth index

-- The index of the parenthesis that closes.
def closeOf (tokens : List Token) (depth index : Nat) : Except Trap (Option Nat) :=
  if _h : index < tokens.length then
    match tokens[index] with
    | .mark '(' => closeOf tokens (depth + 1) (index + 1)
    | .mark ')' => do
      let depth ← countDown depth
      if depth = 0 then return some index
      else closeOf tokens depth (index + 1)
    | _ => closeOf tokens depth (index + 1)
  else return none
termination_by tokens.length - index

-- The names that the token at an index introduces.
def introduced (tokens : List Token) (index : Nat) : Token → Except Trap (List String)
  | .ident word =>
    if declares word then
      match tokens[index + 1]? with
      | some (.ident name) =>
        if word = "function" then do
          let names ← groupNames tokens (index + 2)
          return name :: names
        else return [name]
      | _ => groupNames tokens (index + 1)
    else if word = "catch" then groupNames tokens (index + 1)
    else return []
  | .arrow =>
    match tokenBefore tokens index with
    | some (.ident name) => return [name]
    | some (.mark ')') => do
      let close ← countDown index
      match ← openOf tokens 0 (close + 1) with
      | some start => groupNames tokens start
      | none => return []
    | _ => return []
  | .mark ')' =>
    if tokens[index + 1]? = some (.mark '\x7b') then do
      match ← openOf tokens 0 (index + 1) with
      | some start =>
        if isName (tokenBefore tokens start) then groupNames tokens start else return []
      | none => return []
    else return []
  | _ => return []

def localNames (tokens : List Token) (index : Nat) : Except Trap (List String) :=
  if _h : index < tokens.length then do
    let names ← introduced tokens index tokens[index]
    let later ← localNames tokens (index + 1)
    return names ++ later
  else return []
termination_by tokens.length - index

-- Follows accessors from the root of a chain. Gives the chain and the index of
-- the token after it.
def follow (tokens : List Token) (chain : Path) (index : Nat) : Path × Nat :=
  if _h : index < tokens.length then
    match tokens[index], tokens[index + 1]?, tokens[index + 2]? with
    | .mark '.', some (.ident key), _ => follow tokens (chain.childKey key) (index + 2)
    | .optionalDot, some (.ident key), _ => follow tokens (chain.childKey key) (index + 2)
    | .mark '[', some (.str key), some (.mark ']') =>
      follow tokens (chain.childKey key) (index + 3)
    | .mark '[', some (.number digits), some (.mark ']') =>
      if digits.toList.all Char.isDigit then follow tokens (chain.childKey digits) (index + 3)
      else (chain, index)
    | _, _, _ => (chain, index)
  else (chain, index)
termination_by tokens.length - index

def namesMethod (tokens : List Token) (index : Nat) : Except Trap Bool :=
  if (tokenBefore tokens index).any fun token =>
      isMarkOf ['\x7b', ','] token || token == .ident "async" then do
    let close ← closeOf tokens 0 (index + 1)
    return close.any fun close => tokens[close + 1]? = some (.mark '\x7b')
  else return false

def isReference (tokens : List Token) (names : List String) (index : Nat) (name : String) :
    Except Trap Bool :=
  if isKeyword name || names.contains name then return false
  else if isAccess (tokenBefore tokens index) then return false
  else if tokens[index + 1]? = some (.mark ':') &&
      (tokenBefore tokens index).any (isMarkOf ['\x7b', ',']) then return false
  else if tokens[index + 1]? = some (.mark '(') then return !(← namesMethod tokens index)
  else return true

def readReference (tokens : List Token) (index : Nat) (name : String) : Reference :=
  let (chain, stop) := follow tokens (Path.ofEntity name) (index + 1)
  ⟨chain, decide (tokens[stop]? = some (.mark '('))⟩

def references (tokens : List Token) (names : List String) (index : Nat) :
    Except Trap (List Reference) :=
  if _h : index < tokens.length then
    match tokens[index] with
    | .ident name => do
      let later ← references tokens names (index + 1)
      if ← isReference tokens names index name then return readReference tokens index name :: later
      else return later
    | _ => references tokens names (index + 1)
  else return []
termination_by tokens.length - index

def referencesOf (tokens : List Token) : Except Trap (List Reference) := do
  let names ← localNames tokens 0
  references tokens names 0

end Definitions

section Around

-- The tokens before an index, the nearest first, and those from there on.
def Around (tokens before rest : List Token) : Prop := tokens = before.reverse ++ rest

namespace Around

theorem start (tokens : List Token) : Around tokens [] tokens := rfl

theorem next (h : Around tokens before (token :: rest)) : Around tokens (token :: before) rest := by
  rw [Around, List.reverse_cons, List.append_assoc]
  exact h

theorem back (h : Around tokens (token :: before) rest) : Around tokens before (token :: rest) := by
  rwa [Around, List.reverse_cons, List.append_assoc] at h

theorem getElem?_add (h : Around tokens before rest) (count : Nat) :
    tokens[before.length + count]? = rest[count]? := by
  rw [Around] at h
  rw [h, List.getElem?_append_right (by rw [List.length_reverse]; omega), List.length_reverse,
    Nat.add_sub_cancel_left]

theorem getElem? (h : Around tokens before rest) : tokens[before.length]? = rest.head? := by
  rw [List.head?_eq_getElem?]
  exact h.getElem?_add 0

theorem exists_cons (h : Around tokens before rest) (hget : tokens[before.length]? = some token) :
    ∃ more, rest = token :: more :=
  List.head?_eq_some_iff.mp (h.getElem? ▸ hget)

theorem exists_pair {second : Token} (h : Around tokens before rest)
    (hlt : before.length < tokens.length) (htoken : tokens[before.length] = token)
    (hnext : tokens[before.length + 1]? = some second) :
    ∃ more, rest = token :: second :: more := by
  obtain ⟨more, rfl⟩ := h.exists_cons (List.getElem?_eq_some_iff.mpr ⟨hlt, htoken⟩)
  obtain ⟨more, rfl⟩ := h.next.exists_cons hnext
  exact ⟨more, rfl⟩

theorem exists_getElem (h : Around tokens before (token :: rest)) :
    ∃ _ : before.length < tokens.length, tokens[before.length] = token :=
  List.getElem?_eq_some_iff.mp h.getElem?

theorem not_lt (h : Around tokens before []) : ¬before.length < tokens.length := by
  rw [Nat.not_lt, ← List.getElem?_eq_none_iff]
  exact h.getElem?

theorem tokenBefore (h : Around tokens before rest) :
    tokenBefore tokens before.length = before.head? := by
  cases before with
  | nil => rfl
  | cons token before => exact h.back.getElem?

end Around

end Around

section Names

-- By induction on the tokens behind an opening bracket.
theorem namesInside_eq (h : Around tokens (previous :: before) rest) :
    namesInside tokens (depth + 1) (previous :: before).length =
      .ok (Binding.namesInside previous depth rest) := by
  induction rest generalizing previous before depth with
  | nil =>
      rw [namesInside, dif_neg h.not_lt]
      rfl
  | cons token rest ih =>
      obtain ⟨hlt, htoken⟩ := h.exists_getElem
      rw [namesInside, dif_pos hlt, htoken]
      cases token with
      | mark c =>
          rw [Binding.namesInside.eq_def]
          dsimp only
          split_ifs with hopen hclose
          · exact ih h.next
          · cases depth with
            | zero => rfl
            | succ depth =>
                rw [countDown_succ, ok_bind, if_neg depth.succ_ne_zero]
                exact ih h.next
          · exact ih h.next
      | ident name =>
          have hlater : namesInside tokens (depth + 1) (before.length + 1 + 1) =
            .ok (Binding.namesInside (.ident name) depth rest) := ih h.next
          have hprevious : tokens[before.length]? = some previous := h.back.getElem?
          have hnext : tokens[before.length + 1 + 1]? = rest.head? := h.next.getElem?
          rw [Binding.namesInside.eq_def]
          dsimp only
          rw [List.length_cons, countDown_succ, ok_bind, hlater, ok_bind, hprevious, hnext,
            Option.any_some]
          split_ifs <;> rfl
      | _ => exact ih h.next

theorem groupNames_eq (h : Around tokens before rest) :
    groupNames tokens before.length = .ok (Binding.groupNames rest) := by
  rw [groupNames, h.getElem?]
  cases rest with
  | nil => rfl
  | cons token rest =>
      obtain ⟨hlt, htoken⟩ := h.exists_getElem
      cases token with
      | mark c =>
          rw [Binding.groupNames.eq_def]
          dsimp only [List.head?_cons]
          split_ifs with hopen
          · rw [namesInside, dif_pos hlt, htoken]
            dsimp only
            rw [if_pos hopen]
            exact namesInside_eq h.next
          · rfl
      | _ => rfl

-- By induction on the tokens before a closing parenthesis.
theorem openOf_eq (h : Around tokens before rest) : openOf tokens (depth + 1) before.length =
    .ok ((backToOpen depth rest before).map fun pair => pair.1.length) := by
  fun_induction backToOpen depth rest before with
  | case1 => rfl
  | case2 depth rest before ih =>
      rw [List.length_cons, openOf, h.back.getElem?]
      exact ih h.back
  | case3 rest before =>
      rw [List.length_cons, openOf, h.back.getElem?]
      rfl
  | case4 rest before depth ih =>
      rw [List.length_cons, openOf, h.back.getElem?]
      exact ih h.back
  | case5 depth rest token before hclose hopen ih =>
      rw [List.length_cons, openOf, h.back.getElem?, List.head?_cons]
      split
      · next heq => cases heq
      · next heq => exact absurd (Option.some.inj heq) hclose
      · next heq => exact absurd (Option.some.inj heq) hopen
      · exact ih h.back

-- From a parenthesis that opens, the search would count down from zero.
example : openOf [.mark '('] 0 1 = .error .underflow := rfl

theorem around_backToOpen {pair : List Token × List Token} (h : Around tokens before rest)
    (hpair : backToOpen depth rest before = some pair) : Around tokens pair.1 pair.2 := by
  fun_induction backToOpen depth rest before with
  | case1 => cases hpair
  | case2 depth rest before ih => exact ih h.back hpair
  | case3 rest before =>
      cases hpair
      exact h.back
  | case4 rest before depth ih => exact ih h.back hpair
  | case5 depth rest token before _ _ ih => exact ih h.back hpair

-- The search for the partner of the closing parenthesis at an index begins
-- with that parenthesis, so that it has counted one before it counts down.
theorem openOf_close (h : Around tokens before (.mark ')' :: rest)) :
    openOf tokens 0 (before.length + 1) =
      .ok ((backToOpen 0 (.mark ')' :: rest) before).map fun pair => pair.1.length) := by
  rw [openOf, h.getElem?]
  exact openOf_eq h

theorem introduced_ident {word : String} (h : Around tokens before (.ident word :: rest)) :
    introduced tokens before.length (.ident word) =
      .ok (Binding.introduced before (.ident word) rest) := by
  have hnext : tokens[before.length + 1]? = rest.head? := h.next.getElem?
  have hgroup : groupNames tokens (before.length + 1) = .ok (Binding.groupNames rest) :=
    groupNames_eq h.next
  rw [introduced, hnext, hgroup, Binding.introduced.eq_def]
  dsimp only
  cases rest with
  | nil => split_ifs <;> rfl
  | cons token after =>
      cases token with
      | ident name =>
          have hparameters : groupNames tokens (before.length + 2) =
            .ok (Binding.groupNames after) := groupNames_eq h.next.next
          dsimp only [List.head?_cons]
          rw [hparameters]
          split_ifs <;> rfl
      | _ => split_ifs <;> rfl

theorem introduced_arrow (h : Around tokens before (.arrow :: rest)) :
    introduced tokens before.length .arrow = .ok (Binding.introduced before .arrow rest) := by
  rw [introduced, h.tokenBefore]
  cases before with
  | nil => rfl
  | cons previous before =>
      cases previous with
      | mark c =>
          by_cases hc : c = ')'
          · subst hc
            dsimp only [List.head?_cons]
            rw [List.length_cons, countDown_succ, ok_bind, openOf_close h.back, ok_bind]
            cases hopen : backToOpen 0 (.mark ')' :: .arrow :: rest) before with
            | none => simp [Binding.introduced, hopen]
            | some pair =>
                have hgroup := groupNames_eq (around_backToOpen h.back hopen)
                simp [Binding.introduced, hopen, hgroup]
          · simp [Binding.introduced, hc]
      | _ => rfl

theorem introduced_mark {c : Char} (h : Around tokens before (.mark c :: rest)) :
    introduced tokens before.length (.mark c) =
      .ok (Binding.introduced before (.mark c) rest) := by
  by_cases hc : c = ')'
  · subst hc
    have hnext : tokens[before.length + 1]? = rest.head? := h.next.getElem?
    rw [introduced, hnext, openOf_close h, Binding.introduced.eq_def]
    split_ifs with hbody
    · rw [ok_bind]
      cases hopen : backToOpen 0 (.mark ')' :: rest) before with
      | none => rfl
      | some pair =>
          have hpair := around_backToOpen h hopen
          dsimp only [Option.map_some]
          rw [hpair.tokenBefore, groupNames_eq hpair]
          split_ifs <;> rfl
    · rfl
  · simp [introduced, Binding.introduced, hc]

theorem introduced_eq (h : Around tokens before (token :: rest)) :
    introduced tokens before.length token = .ok (Binding.introduced before token rest) := by
  cases token with
  | ident word => exact introduced_ident h
  | arrow => exact introduced_arrow h
  | mark c => exact introduced_mark h
  | _ => rfl

theorem localNames_eq (h : Around tokens before rest) :
    localNames tokens before.length = .ok (Binding.localNames before rest) := by
  induction rest generalizing before with
  | nil =>
      rw [localNames, dif_neg h.not_lt]
      rfl
  | cons token rest ih =>
      obtain ⟨hlt, htoken⟩ := h.exists_getElem
      have hlater : localNames tokens (before.length + 1) =
        .ok (Binding.localNames (token :: before) rest) := ih h.next
      rw [localNames, dif_pos hlt, htoken, introduced_eq h, ok_bind, hlater]
      rfl

end Names

section Chains

theorem follow_digits {digits : String}
    (h : Around tokens before (.mark '[' :: .number digits :: .mark ']' :: rest)) :
    follow tokens chain before.length =
      if digits.toList.all Char.isDigit then
        follow tokens (chain.childKey digits) (before.length + 3)
      else (chain, before.length) := by
  obtain ⟨hlt, htoken⟩ := h.exists_getElem
  have hnext : tokens[before.length + 1]? = some (.number digits) := h.getElem?_add 1
  have hlast : tokens[before.length + 2]? = some (.mark ']') := h.getElem?_add 2
  rw [follow, dif_pos hlt, htoken, hnext, hlast]
  rfl

-- Where no accessor stands, the chain ends.
theorem follow_other (h : Around tokens before rest)
    (hdot : ∀ key more, rest ≠ .mark '.' :: .ident key :: more)
    (hoptional : ∀ key more, rest ≠ .optionalDot :: .ident key :: more)
    (hname : ∀ key more, rest ≠ .mark '[' :: .str key :: .mark ']' :: more)
    (hdigits : ∀ digits more, rest ≠ .mark '[' :: .number digits :: .mark ']' :: more) :
    follow tokens chain before.length = (chain, before.length) := by
  rw [follow]
  split
  · next hlt =>
    split
    · next key htoken hnext =>
      obtain ⟨more, hrest⟩ := h.exists_pair hlt htoken hnext
      exact absurd hrest (hdot key more)
    · next key htoken hnext =>
      obtain ⟨more, hrest⟩ := h.exists_pair hlt htoken hnext
      exact absurd hrest (hoptional key more)
    · next key htoken hnext hlast =>
      obtain ⟨more, rfl⟩ := h.exists_pair hlt htoken hnext
      obtain ⟨more, rfl⟩ := h.next.next.exists_cons hlast
      exact absurd rfl (hname key more)
    · next digits htoken hnext hlast =>
      obtain ⟨more, rfl⟩ := h.exists_pair hlt htoken hnext
      obtain ⟨more, rfl⟩ := h.next.next.exists_cons hlast
      exact absurd rfl (hdigits digits more)
    · rfl
  · rfl

-- A chain and what follows it, by the accessors of the chain.
theorem follow_eq (chain : Path) (h : Around tokens before rest) :
    (follow tokens chain before.length).1 = (Binding.follow chain rest).1 ∧
      tokens[(follow tokens chain before.length).2]? = (Binding.follow chain rest).2.head? := by
  fun_induction Binding.follow chain rest generalizing before with
  | case1 chain key rest ih =>
      obtain ⟨hlt, htoken⟩ := h.exists_getElem
      have hnext : tokens[before.length + 1]? = some (.ident key) := h.getElem?_add 1
      rw [follow, dif_pos hlt, htoken, hnext]
      exact ih h.next.next
  | case2 chain key rest ih =>
      obtain ⟨hlt, htoken⟩ := h.exists_getElem
      have hnext : tokens[before.length + 1]? = some (.ident key) := h.getElem?_add 1
      rw [follow, dif_pos hlt, htoken, hnext]
      exact ih h.next.next
  | case3 chain key rest ih =>
      obtain ⟨hlt, htoken⟩ := h.exists_getElem
      have hnext : tokens[before.length + 1]? = some (.str key) := h.getElem?_add 1
      have hlast : tokens[before.length + 2]? = some (.mark ']') := h.getElem?_add 2
      rw [follow, dif_pos hlt, htoken, hnext, hlast]
      exact ih h.next.next.next
  | case4 chain digits rest hdigits ih =>
      rw [follow_digits h, if_pos hdigits]
      exact ih h.next.next.next
  | case5 chain digits rest hdigits =>
      rw [follow_digits h, if_neg hdigits]
      exact ⟨rfl, h.getElem?⟩
  | case6 chain rest hdot hoptional hname hdigits =>
      rw [follow_other h hdot hoptional hname hdigits]
      exact ⟨rfl, h.getElem?⟩

-- By induction on the tokens behind an opening parenthesis.
theorem closeOf_eq (h : Around tokens before rest) : ∃ close,
    closeOf tokens (depth + 1) before.length = .ok close ∧
      close.map (fun close => tokens[close + 1]?) = (afterClose depth rest).map List.head? := by
  fun_induction afterClose depth rest generalizing before with
  | case1 depth =>
      rw [closeOf, dif_neg h.not_lt]
      exact ⟨none, rfl, rfl⟩
  | case2 depth rest ih =>
      obtain ⟨hlt, htoken⟩ := h.exists_getElem
      rw [closeOf, dif_pos hlt, htoken]
      exact ih h.next
  | case3 rest =>
      obtain ⟨hlt, htoken⟩ := h.exists_getElem
      rw [closeOf, dif_pos hlt, htoken]
      exact ⟨some before.length, rfl, congrArg some h.next.getElem?⟩
  | case4 rest depth ih =>
      obtain ⟨hlt, htoken⟩ := h.exists_getElem
      rw [closeOf, dif_pos hlt, htoken]
      exact ih h.next
  | case5 depth token rest hopen hclose ih =>
      obtain ⟨hlt, htoken⟩ := h.exists_getElem
      rw [closeOf, dif_pos hlt, htoken]
      split
      · exact absurd rfl hopen
      · exact absurd rfl hclose
      · exact ih h.next

theorem closeOf_open (h : Around tokens before (.mark '(' :: rest)) : ∃ close,
    closeOf tokens 0 before.length = .ok close ∧
      close.map (fun close => tokens[close + 1]?) = (afterClose 0 rest).map List.head? := by
  obtain ⟨hlt, htoken⟩ := h.exists_getElem
  rw [closeOf, dif_pos hlt, htoken]
  exact closeOf_eq h.next

theorem namesMethod_eq (h : Around tokens before (token :: .mark '(' :: rest)) :
    namesMethod tokens before.length =
      .ok (Binding.namesMethod before.head? (.mark '(' :: rest)) := by
  obtain ⟨close, hclose, hbody⟩ := closeOf_open h.next
  rw [List.length_cons] at hclose
  have hany : (close.any fun close => tokens[close + 1]? = some (.mark '\x7b')) =
      ((afterClose 0 rest).any fun after => after.head? = some (.mark '\x7b')) := by
    have hmap := congrArg (Option.any fun next => next = some (.mark '\x7b')) hbody
    rwa [Option.any_map, Option.any_map] at hmap
  rw [namesMethod, h.tokenBefore, hclose, ok_bind, hany, Binding.namesMethod]
  split
  · next hprevious =>
    rw [hprevious]
    rfl
  · next hprevious =>
    rw [eq_false_of_ne_true hprevious]
    rfl

theorem isReference_eq {name : String} (h : Around tokens before (.ident name :: rest)) :
    isReference tokens names before.length name =
      .ok (Binding.isReference names before.head? name rest) := by
  have hnext : tokens[before.length + 1]? = rest.head? := h.next.getElem?
  rw [isReference, Binding.isReference, namesMember, h.tokenBefore, hnext]
  cases isKeyword name || names.contains name with
  | true => rfl
  | false =>
  cases isAccess before.head? with
  | true => rfl
  | false =>
  cases decide (rest.head? = some (.mark ':')) && before.head?.any (isMarkOf ['\x7b', ',']) with
  | true => rfl
  | false =>
  by_cases hopen : rest.head? = some (.mark '(')
  · obtain ⟨after, rfl⟩ := List.head?_eq_some_iff.mp hopen
    rw [namesMethod_eq h]
    rfl
  · have hmethod : Binding.namesMethod before.head? rest = false := by
      unfold Binding.namesMethod
      split
      · exact absurd rfl hopen
      · rfl
    rw [if_neg hopen, hmethod]
    rfl

theorem readReference_eq {name : String} (h : Around tokens before (.ident name :: rest)) :
    readReference tokens before.length name = Binding.readReference name rest := by
  obtain ⟨hchain, hstop⟩ := follow_eq (Path.ofEntity name) h.next
  rw [readReference, Binding.readReference]
  dsimp only
  rw [← hchain, ← hstop]
  rfl

theorem references_eq (h : Around tokens before rest) :
    references tokens names before.length = .ok (Binding.references names before.head? rest) := by
  induction rest generalizing before with
  | nil =>
      rw [references, dif_neg h.not_lt]
      rfl
  | cons token rest ih =>
      obtain ⟨hlt, htoken⟩ := h.exists_getElem
      have hlater : references tokens names (before.length + 1) =
        .ok (Binding.references names (some token) rest) := ih h.next
      rw [references, dif_pos hlt, htoken]
      cases token with
      | ident name =>
          rw [Binding.references]
          dsimp only
          rw [hlater, ok_bind, isReference_eq h, ok_bind, readReference_eq h]
          split_ifs <;> rfl
      | _ => exact hlater

theorem referencesOf_eq (tokens : List Token) :
    referencesOf tokens = .ok (Binding.referencesOf tokens) := by
  have hnames : localNames tokens 0 = .ok (Binding.localNames [] tokens) :=
    localNames_eq (.start tokens)
  rw [referencesOf, hnames, ok_bind]
  exact references_eq (.start tokens)

end Chains

end Recalc.Binding.Indexed

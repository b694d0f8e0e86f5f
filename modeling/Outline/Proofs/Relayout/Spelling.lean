import Outline.Proofs.Relayout.Blanks
import Outline.Proofs.Written.Parameters

/-!
# Tokens without their layout

The readers of members and heads look neither at the places of tokens nor at the texts of blocks
behind the bracket, and at the text of an identifier only through the type that it spells, the
characters in it that are not blank, and the names made of it.

* `Spelling` — one text for all texts of identifiers that are spelled alike.
* `Spelling.tree` — a token tree without places, with such texts.
* `Spelling.annotations_isEmpty`, `Spelling.typeMachine_accept`, `Spelling.parameters` — the
  readers of annotations, types and parameters make the same of both trees.
-/

namespace Outline

/-- A choice of one text for all texts of identifiers that are spelled alike, together with what
is compared of the names that are made of them. -/
structure Spelling where
  /-- The text in place of that of an identifier. -/
  word : String → String
  /-- What is compared of a name. -/
  name : String → String
  /-- Both texts spell the same type. -/
  parse_word (s : String) : (TypeRef.parse (word s)).toOption = (TypeRef.parse s).toOption
  /-- Both texts are the same name. -/
  name_word (s : String) : name (word s) = name s
  /-- Both texts are the same dotted name. -/
  parts_word (s : String) : (Text.dottedParts (word s)).map name = (Text.dottedParts s).map name
  /-- Both texts hold the same characters that are not blank. -/
  any_word (s : String) {f : Char → Bool} (hf : ∀ c, f c = true → Text.isBlank c = false) :
    (word s).toList.any f = s.toList.any f
  /-- A text without blank characters is the only one that is spelled so. -/
  word_eq_iff (s : String) {w : String} (hw : ∀ c ∈ w.toList, Text.isBlank c = false) :
    word s = w ↔ s = w
  /-- What is compared of a name is a name itself. -/
  name_name (s : String) : name (name s) = name s

namespace Spelling

/-- The spelling that tells all texts apart. -/
def exact : Spelling where
  word := id
  name := id
  parse_word _ := rfl
  name_word _ := rfl
  parts_word _ := rfl
  any_word _ _ _ := rfl
  word_eq_iff _ _ _ := Iff.rfl
  name_name _ := rfl

variable (σ : Spelling)

/-! ## Tokens -/

/-- The bracket that a text starts with; other texts are kept. -/
def bracket (s : String) : String :=
  match s.toList with
  | c :: _ => if ['(', '[', '\x7b'].contains c then String.singleton c else s
  | [] => s

/-- A token without its place. -/
def token (t : Token) : Token where
  kind := t.kind
  span := {}
  text :=
    if t.kind.isCompound then bracket t.text
    else if t.kind == .identifier then σ.word t.text
    else t.text

mutual

/-- A token tree without places. -/
def tree : TokenTree → TokenTree
  | .node t ts => .node (σ.token t) (trees ts)

/-- Token trees without places. -/
def trees : List TokenTree → List TokenTree
  | [] => []
  | t :: ts => tree t :: trees ts

end

theorem trees_eq_map (ts : List TokenTree) : σ.trees ts = ts.map σ.tree := by
  induction ts with
  | nil => rw [trees, List.map_nil]
  | cons t ts ih => rw [trees, List.map_cons, ih]

@[simp] theorem value_tree (t : TokenTree) : (σ.tree t).value = σ.token t.value := by
  cases t
  rw [tree, Rose.value_node, Rose.value_node]

@[simp] theorem children_tree (t : TokenTree) :
    (σ.tree t).children = t.children.map σ.tree := by
  cases t
  rw [tree, Rose.children_node, Rose.children_node, trees_eq_map]

@[simp] theorem kind_tree (t : TokenTree) : (σ.tree t).kind = t.kind := by
  rw [TokenTree.kind, value_tree, TokenTree.kind, token]

theorem text_tree (t : TokenTree) : (σ.tree t).text = (σ.token t.value).text := by
  rw [TokenTree.text, value_tree]

variable {σ} {t : Token}

@[simp] theorem kind_token : (σ.token t).kind = t.kind := rfl

theorem text_token (hcompound : t.kind.isCompound = false) (hid : t.kind ≠ .identifier) :
    (σ.token t).text = t.text := by
  simp [token, hcompound, hid]

theorem text_identifier (hid : t.kind = .identifier) : (σ.token t).text = σ.word t.text := by
  simp [token, hid, TokenKind.isCompound]

theorem text_keyword (h : t.kind = .keyword) : (σ.token t).text = t.text :=
  text_token (by rw [h]; rfl) (by rw [h]; decide)

theorem text_string (h : t.kind = .string) : (σ.token t).text = t.text :=
  text_token (by rw [h]; rfl) (by rw [h]; decide)

theorem head?_bracket (s : String) : (bracket s).toList.head? = s.toList.head? := by
  rw [bracket]
  split
  · rename_i c cs hs
    split
    · rw [hs, String.toList_singleton]
      rfl
    · rfl
  · rfl

@[simp] theorem isBlock_token (b : Char) : (σ.token t).isBlock b = t.isBlock b := by
  rw [Token.isBlock, Token.isBlock, kind_token]
  by_cases h : t.kind = .block
  · simp [token, h, TokenKind.isCompound, head?_bracket]
  · rw [beq_eq_false_iff_ne.2 h, Bool.false_and, Bool.false_and]

theorem text_eq_of_kind {k : TokenKind} (hcompound : k.isCompound = false) (hid : k ≠ .identifier)
    (w : String) : ((σ.token t).kind == k && (σ.token t).text == w) =
      (t.kind == k && t.text == w) := by
  by_cases h : t.kind = k
  · rw [text_token (by rw [h, hcompound]) (by rw [h]; exact hid), kind_token]
  · rw [kind_token, beq_eq_false_iff_ne.2 h, Bool.false_and, Bool.false_and]

@[simp] theorem isKeyword_token (w : String) : (σ.token t).isKeyword w = t.isKeyword w :=
  text_eq_of_kind rfl (by decide) w

@[simp] theorem isOperator_token (w : String) : (σ.token t).isOperator w = t.isOperator w :=
  text_eq_of_kind rfl (by decide) w

@[simp] theorem isSeparator_token (w : String) : (σ.token t).isSeparator w = t.isSeparator w :=
  text_eq_of_kind rfl (by decide) w

@[simp] theorem marks_token (l : Language) (role : Capability) :
    l.marks role (σ.token t) = l.marks role t := by
  rw [Language.marks, Language.marks, kind_token]
  by_cases h : t.kind = .keyword
  · rw [text_keyword h]
  · rw [beq_eq_false_iff_ne.2 h, Bool.false_and, Bool.false_and]

/-- The text of a keyword is kept. -/
theorem text_of_marks {l : Language} {r : Capability} (h : l.marks r t = true) :
    (σ.token t).text = t.text :=
  text_keyword (Language.kind_of_marks h)

/-- An identifier is the same word, if the word has no blank characters. -/
theorem isIdentifier_token {w : String} (hw : ∀ c ∈ w.toList, Text.isBlank c = false) :
    ((σ.token t).kind == .identifier && (σ.token t).text == w) =
      (t.kind == .identifier && t.text == w) := by
  rw [kind_token]
  by_cases h : t.kind = .identifier
  · rw [text_identifier h]
    have hiff := σ.word_eq_iff t.text hw
    rw [Bool.eq_iff_iff]
    simpa [h] using hiff
  · rw [beq_eq_false_iff_ne.2 h, Bool.false_and, Bool.false_and]

/-- An identifier is made of the same characters, blank ones apart. -/
theorem any_identifier (h : t.kind = .identifier) {f : Char → Bool}
    (hf : ∀ c, f c = true → Text.isBlank c = false) :
    (σ.token t).text.toList.any f = t.text.toList.any f := by
  rw [text_identifier h, σ.any_word _ hf]

/-! ## Groups between commas -/

variable (σ)

theorem commaGroupsFrom_trees (group ts : List TokenTree) :
    TokenTree.commaGroupsFrom (group.map σ.tree) (ts.map σ.tree) =
      (TokenTree.commaGroupsFrom group ts).map (List.map σ.tree) := by
  fun_induction TokenTree.commaGroupsFrom group ts with
  | case1 group => simp [TokenTree.commaGroupsFrom]
  | case2 group t ts hcomma ih =>
      simpa [TokenTree.commaGroupsFrom, hcomma] using ih
  | case3 group t ts hcomma hcomment ih =>
      have hcomment' : t.value.kind = .comment := by simpa using hcomment
      simpa [TokenTree.commaGroupsFrom, hcomma, hcomment'] using ih
  | case4 group t ts hcomma hcomment ih =>
      have hcomment' : t.value.kind ≠ .comment := by simpa using hcomment
      simpa [TokenTree.commaGroupsFrom, hcomma, hcomment'] using ih

theorem commaGroups_trees (ts : List TokenTree) :
    TokenTree.commaGroups (ts.map σ.tree) =
      (TokenTree.commaGroups ts).map (List.map σ.tree) := by
  have h := commaGroupsFrom_trees σ [] ts
  rw [List.map_nil] at h
  rw [TokenTree.commaGroups, TokenTree.commaGroups, h, List.filter_map]
  congr 1
  exact List.filter_congr fun group _ => by cases group <;> rfl

theorem commaGroups_children (t : TokenTree) :
    TokenTree.commaGroups (σ.tree t).children =
      (TokenTree.commaGroups t.children).map (List.map σ.tree) := by
  rw [children_tree, commaGroups_trees]

/-! ## Annotations -/

/-- A group is an annotation if an identifier comes first, or behind a target and its colon. -/
theorem ofGroup?_isSome (group : List TokenTree) : ( Annotation.ofGroup? group).isSome =
    (group.drop (if (group[1]?).any (·.value.isOperator ":") then 2 else 0)).head?.any
      (·.kind == .identifier) := by
  have hname : ∀ (name : TokenTree) rest, (if name.kind == .identifier then
      some ( Annotation.mk name.text ( Annotation.argumentsAfter rest)) else none).isSome =
        (name.kind == .identifier) := by
    intro name rest
    cases name.kind == TokenKind.identifier <;> rfl
  rcases group with _ | ⟨first, _ | ⟨mark, rest⟩⟩
  · rfl
  · exact hname first []
  · cases hmark : mark.value.isOperator ":" with
    | false => simpa [ Annotation.ofGroup?, hmark] using hname first (mark :: rest)
    | true =>
        cases rest with
        | nil => simp [ Annotation.ofGroup?, hmark]
        | cons name rest => simpa [ Annotation.ofGroup?, hmark] using hname name rest

theorem ofGroup?_trees (group : List TokenTree) :
    ( Annotation.ofGroup? (group.map σ.tree)).isSome = ( Annotation.ofGroup? group).isSome := by
  have hmark : ((group.map σ.tree)[1]?).any (·.value.isOperator ":") =
      (group[1]?).any (·.value.isOperator ":") := by
    rw [List.getElem?_map, Option.any_map]
    simp only [value_tree, isOperator_token]
  rw [ofGroup?_isSome, ofGroup?_isSome, hmark, ← List.map_drop, List.head?_map, Option.any_map]
  simp only [kind_tree]

/-- All groups are annotations, or none of the two lists of groups makes any. -/
theorem length_mapM_ofGroup? (groups : List (List TokenTree)) :
    ((groups.map (List.map σ.tree)).mapM Annotation.ofGroup?).map List.length =
      (groups.mapM Annotation.ofGroup?).map List.length := by
  induction groups with
  | nil => rfl
  | cons group groups ih =>
      rw [List.map_cons, List.mapM_cons, List.mapM_cons]
      have hgroup := ofGroup?_trees σ group
      cases h : Annotation.ofGroup? group with
      | none =>
          rw [h, Option.isSome_none, Option.isSome_eq_false_iff, Option.isNone_iff_eq_none]
            at hgroup
          rw [hgroup]
          rfl
      | some a =>
          obtain ⟨b, hb⟩ := Option.isSome_iff_exists.1 (hgroup.trans (by rw [h]; rfl))
          rw [hb]
          revert ih
          cases (groups.map (List.map σ.tree)).mapM Annotation.ofGroup? <;>
            cases groups.mapM Annotation.ofGroup? <;> intro ih <;> simp_all

/-- Whether a block in square brackets holds annotations. -/
theorem annotations_isEmpty (t : TokenTree) :
    ( Annotation.ofBrackets (σ.tree t)).isEmpty = ( Annotation.ofBrackets t).isEmpty := by
  rw [ Annotation.ofBrackets, Annotation.ofBrackets, commaGroups_children]
  have hlength := length_mapM_ofGroup? σ (TokenTree.commaGroups t.children)
  revert hlength
  cases ((TokenTree.commaGroups t.children).map (List.map σ.tree)).mapM Annotation.ofGroup? <;>
    cases (TokenTree.commaGroups t.children).mapM Annotation.ofGroup? <;> intro hlength
  · rfl
  · cases hlength
  · cases hlength
  · rename_i as bs
    have : as.length = bs.length := by simpa using hlength
    cases as <;> cases bs <;> simp_all

@[simp] theorem annotationSkip_token (l : Language) (skip : Option AnnotationSkip) (t : Token) :
    AnnotationSkip.step l skip (σ.token t) = AnnotationSkip.step l skip t := by
  unfold AnnotationSkip.step
  cases l.annotationStyle with
  | bracketed => simp
  | atSign =>
      cases skip with
      | none => simp
      | some skip => cases skip <;> simp

/-! ## Types -/

/-- A keyword does not start with a bracket. -/
theorem not_has_bracket (l : Language) (role : Capability) {s : String} {c : Char}
    (hc : c ∈ ['(', '[', '\x7b']) (hs : s.toList.head? = some c) : l.has role s = false := by
  refine Bool.eq_false_iff.2 fun hhas => ?_
  rw [Language.has, KeywordTable.has, KeywordTable.capabilities?] at hhas
  cases hlookup : l.keywords.lookup s with
  | none => rw [hlookup] at hhas; cases hhas
  | some roles =>
      obtain ⟨front, back, htable, -⟩ := List.lookup_eq_some_iff.1 hlookup
      have hmem : (s, roles) ∈ l.keywords := by rw [htable]; simp
      have htables : (l.keywords.all fun entry =>
          !(['(', '[', '\x7b'].any fun c => entry.1.toList.head? == some c)) = true := by
        cases l <;> decide +kernel
      have := List.all_eq_true.1 htables _ hmem
      simp only [hs, Bool.not_eq_true', List.any_eq_false] at this
      exact this c hc (by simp)

theorem has_token (l : Language) (role : Capability) (t : Token) (hid : t.kind ≠ .identifier) :
    l.has role (σ.token t).text = l.has role t.text := by
  by_cases hcompound : t.kind.isCompound = true
  · have htext : (σ.token t).text = bracket t.text := by simp [token, hcompound]
    rw [htext, bracket]
    split
    · rename_i c cs hs
      split
      · rename_i hc
        have hmem : c ∈ ['(', '[', '\x7b'] := by simpa using hc
        rw [not_has_bracket l role hmem (s := t.text) (by rw [hs]; rfl),
          not_has_bracket l role hmem (by rw [String.toList_singleton]; rfl)]
      · rfl
    · rfl
  · rw [text_token (Bool.eq_false_iff.2 hcompound) hid]

theorem parse_token (t : Token) (h : t.kind.isCompound = false) :
    (TypeRef.parse (σ.token t).text).toOption = (TypeRef.parse t.text).toOption := by
  by_cases hid : t.kind = .identifier
  · rw [text_identifier hid, σ.parse_word]
  · rw [text_token h hid]

@[simp] theorem starts_token (l : Language) (allowVoid : Bool) (t : Token) :
    TypeMachine.starts l allowVoid (σ.token t) = TypeMachine.starts l allowVoid t := by
  unfold TypeMachine.starts
  rw [kind_token]
  cases h : t.kind
  case keyword => rw [text_keyword h]
  case block => simp
  all_goals rfl

/-- What a machine makes of a token, apart from the malformed types. -/
def outcome {α β : Type} (f : α → β) (s : Step α) : β × Bool := (f s.state, s.taken)

theorem outcome_find {a b : String} (h : (TypeRef.parse a).toOption = (TypeRef.parse b).toOption) :
    outcome id (TypeMachine.find a) = outcome id (TypeMachine.find b) := by
  rw [TypeMachine.find, TypeMachine.find]
  revert h
  cases TypeRef.parse a <;> cases TypeRef.parse b <;> intro h <;> cases h <;> rfl

/-- The machine that reads a type goes the same way. -/
theorem typeMachine_accept (l : Language) (allowVoid : Bool) (m : TypeMachine) (t : Token) :
    outcome id (m.accept l allowVoid (σ.token t)) = outcome id (m.accept l allowVoid t) := by
  cases m with
  | idle =>
      simp only [TypeMachine.accept, starts_token, isBlock_token]
      split
      · rfl
      · split
        · rfl
        · refine outcome_find ?_
          unfold TypeMachine.startText
          rw [kind_token]
          cases h : t.kind
          case block => rfl
          case string => rfl
          case number => rfl
          case document =>
            rename_i hstarts _
            exact absurd (by simp [TypeMachine.starts, h]) hstarts
          all_goals exact parse_token σ t (by rw [h]; rfl)
  | found type =>
      simp only [TypeMachine.accept, isOperator_token]
  | union type =>
      simp only [TypeMachine.accept, isKeyword_token, starts_token, isBlock_token]
  | functionParams => simp only [TypeMachine.accept, isOperator_token]
  | functionArrow => simp only [TypeMachine.accept, isKeyword_token, starts_token]
  | complete type => rfl
  | failed => rfl

theorem typeMachine_readFrom (l : Language) (allowVoid : Bool) (m : TypeMachine)
    (ts : List TokenTree) :
    (TypeMachine.readFrom l allowVoid m (ts.map σ.tree)).1 =
        (TypeMachine.readFrom l allowVoid m ts).1 ∧
      (TypeMachine.readFrom l allowVoid m (ts.map σ.tree)).2.1 =
        (TypeMachine.readFrom l allowVoid m ts).2.1.map σ.tree := by
  induction ts generalizing m with
  | nil => exact ⟨rfl, rfl⟩
  | cons t ts ih =>
      obtain ⟨hstate, htaken⟩ := Prod.mk.inj (typeMachine_accept σ l allowVoid m t.value)
      simp only [id_eq] at hstate
      rw [List.map_cons, TypeMachine.readFrom, TypeMachine.readFrom]
      simp only [value_tree, hstate, htaken]
      split
      · exact ⟨rfl, rfl⟩
      · split
        · exact ⟨rfl, rfl⟩
        · exact ih _

theorem typeMachine_read (l : Language) (ts : List TokenTree) :
    (TypeMachine.read l (ts.map σ.tree)).1 =
      (TypeMachine.read l ts).1.map (Prod.map id (List.map σ.tree)) := by
  obtain ⟨hstate, hrest⟩ := typeMachine_readFrom σ l false .idle ts
  simp only [TypeMachine.read, hstate, hrest]
  cases (TypeMachine.readFrom l false .idle ts).1.finish.type? <;> rfl

/-! ## Parameters -/

/-- What is compared of a parameter. -/
def parameter (p : Parameter TypeRef) : Parameter TypeRef :=
  { p with name := σ.name p.name, annotations := [], default? := none }

theorem dropArguments_trees (ts : List TokenTree) :
    Parameter.dropArguments (ts.map σ.tree) = (Parameter.dropArguments ts).map σ.tree := by
  cases ts with
  | nil => rfl
  | cons t ts =>
      rw [List.map_cons, Parameter.dropArguments, Parameter.dropArguments, value_tree,
        isBlock_token]
      split <;> rfl

theorem lead_trees (l : Language) (place : Nat) (ts : List TokenTree) :
    (Parameter.lead l place (ts.map σ.tree)).modifiers = (Parameter.lead l place ts).modifiers ∧
      (Parameter.lead l place (ts.map σ.tree)).rest =
        (Parameter.lead l place ts).rest.map σ.tree := by
  have hmodifier : ∀ t : TokenTree, ((σ.tree t).kind == .keyword &&
      l.isParameterModifier (σ.tree t).text place) =
        (t.kind == .keyword && l.isParameterModifier t.text place) := by
    intro t
    rw [kind_tree, text_tree]
    by_cases hkind : t.kind = .keyword
    · rw [text_keyword hkind]
    · rw [beq_eq_false_iff_ne.2 hkind, Bool.false_and, Bool.false_and]
  fun_induction Parameter.lead l place ts with
  | case1 => simp [Parameter.lead]
  | case2 t ts h after ih =>
      rw [List.map_cons, Parameter.lead_cons, value_tree, isBlock_token, List.length_map, if_pos h]
      exact ih
  | case3 t hsign h =>
      rw [List.map_cons, Parameter.lead_cons, value_tree, isBlock_token, List.length_map, if_neg h,
        isSeparator_token, if_pos hsign]
      exact ⟨rfl, rfl⟩
  | case4 t hsign name ts after a h ih =>
      rw [List.map_cons, Parameter.lead_cons, value_tree, isBlock_token, List.length_map, if_neg h,
        isSeparator_token, if_pos hsign]
      simp only [List.map_cons, dropArguments_trees]
      exact ih
  | case5 t ts h hsign hkeyword after ih =>
      have hkind : t.kind = .keyword := by simpa using (Bool.and_eq_true_iff.1 hkeyword).1
      rw [List.map_cons, Parameter.lead_cons, value_tree, isBlock_token, List.length_map, if_neg h,
        isSeparator_token, if_neg hsign, hmodifier, if_pos hkeyword, text_tree, text_keyword hkind]
      exact ⟨congrArg (t.text :: ·) ih.1, ih.2⟩
  | case6 t ts h hsign hkeyword =>
      rw [List.map_cons, Parameter.lead_cons, value_tree, isBlock_token, List.length_map, if_neg h,
        isSeparator_token, if_neg hsign, hmodifier, if_neg hkeyword]
      exact ⟨rfl, rfl⟩

theorem defaultValue?_isSome (ts : List TokenTree) :
    (Parameter.defaultValue? (ts.map σ.tree)).isSome = (Parameter.defaultValue? ts).isSome := by
  cases ts with
  | nil => rfl
  | cons t ts =>
      rw [List.map_cons, Parameter.defaultValue?, Parameter.defaultValue?, value_tree,
        isOperator_token]
      split <;> rfl

variable {l : Language}

theorem parameter_read (hl : l.memberOrder = .typeFirst) (place : Nat) (group : List TokenTree) :
    (Parameter.read l place (group.map σ.tree)).1.map σ.parameter =
      (Parameter.read l place group).1.map σ.parameter := by
  obtain ⟨hmodifiers, hrest⟩ := lead_trees σ l place group
  rw [Parameter.read, Parameter.read, hl]
  unfold Parameter.readTypeFirst
  have hread := typeMachine_read σ l (Parameter.lead l place group).rest
  dsimp only
  rw [hrest, hmodifiers]
  revert hread
  rcases TypeMachine.read l (Parameter.lead l place group).rest with ⟨found, malformed⟩
  rcases TypeMachine.read l ((Parameter.lead l place group).rest.map σ.tree) with
    ⟨found', malformed'⟩
  rintro hread
  obtain rfl : found' = _ := hread
  rcases found with _ | ⟨type, _ | ⟨name, rest⟩⟩
  · rfl
  · rfl
  · have hkind : (σ.tree name).kind = name.kind := by
      rw [TokenTree.kind, value_tree, kind_token]
    simp only [Option.map_some, Prod.map_apply, List.map_cons, hkind, id_eq]
    split
    · rename_i hid
      have htext : (σ.tree name).text = σ.word name.text := by
        rw [TokenTree.text, value_tree, text_identifier (by simpa using hid)]
      simp only [Option.map_some, parameter, htext, σ.name_word, defaultValue?_isSome]
    · rfl

theorem readGroups_trees (hl : l.memberOrder = .typeFirst) (place : Nat)
    (groups : List (List TokenTree)) :
    (Parameter.readGroups l place (groups.map (List.map σ.tree))).1.map (List.map σ.parameter) =
      (Parameter.readGroups l place groups).1.map (List.map σ.parameter) := by
  induction groups generalizing place with
  | nil => rfl
  | cons group groups ih =>
      rw [List.map_cons, Parameter.readGroups, Parameter.readGroups]
      have hread := parameter_read σ hl place group
      revert hread
      rcases Parameter.read l place group with ⟨_ | p, malformed⟩ <;>
        rcases Parameter.read l place (group.map σ.tree) with ⟨_ | p', malformed'⟩ <;>
        intro hread
      · rfl
      · cases hread
      · cases hread
      · have hp : σ.parameter p' = σ.parameter p := Option.some.inj hread
        have hih := ih (place + 1)
        revert hih
        rcases Parameter.readGroups l (place + 1) groups with ⟨_ | ps, later⟩ <;>
          rcases Parameter.readGroups l (place + 1) (groups.map (List.map σ.tree)) with
            ⟨_ | ps', later'⟩ <;> intro hih
        · rfl
        · cases hih
        · cases hih
        · simpa [hp] using hih

/-- The parameters in parentheses are the same. -/
theorem parameters (hl : l.memberOrder = .typeFirst) (t : TokenTree) :
    (Parameter.ofParens l (σ.tree t)).1.map (List.map σ.parameter) =
      (Parameter.ofParens l t).1.map (List.map σ.parameter) := by
  rw [Parameter.ofParens, Parameter.ofParens, commaGroups_children, readGroups_trees σ hl]

end Spelling

end Outline

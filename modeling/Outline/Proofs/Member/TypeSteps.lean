import Outline.Member.TypeMachine

/-!
# What a token does to a type that is being read

* `Token.isOperator_eq_false` and its like — a token passes the tests of its own kind only.
* `TypeMachine.accepts_accept` — a token is read as part of the type, ends it, is left behind it,
  or is no type.
-/

namespace Outline

/-! ## Tests of tokens -/

namespace Token

variable {t : Token}

theorem isOperator_iff {op : String} : t.isOperator op = true ↔ t.kind = .operator ∧ t.text = op := by
  rw [isOperator, Bool.and_eq_true, beq_iff_eq, beq_iff_eq]

theorem isSeparator_iff {sep : String} :
    t.isSeparator sep = true ↔ t.kind = .separator ∧ t.text = sep := by
  rw [isSeparator, Bool.and_eq_true, beq_iff_eq, beq_iff_eq]

theorem isKeyword_iff {word : String} :
    t.isKeyword word = true ↔ t.kind = .keyword ∧ t.text = word := by
  rw [isKeyword, Bool.and_eq_true, beq_iff_eq, beq_iff_eq]

theorem isBlock_iff {bracket : Char} :
    t.isBlock bracket = true ↔ t.kind = .block ∧ t.text.toList.head? = some bracket := by
  rw [isBlock, Bool.and_eq_true, beq_iff_eq, beq_iff_eq]

/-- A block is told by the bracket that its text begins with. -/
theorem isBlock_of_text {bracket : Char} {text : String} (h : t.kind = .block ∧ t.text = text)
    (hbracket : text.toList.head? = some bracket) : t.isBlock bracket = true :=
  isBlock_iff.2 ⟨h.1, h.2 ▸ hbracket⟩

theorem kind_of_isOperator {op : String} (h : t.isOperator op = true) : t.kind = .operator :=
  (isOperator_iff.1 h).1

theorem text_of_isOperator {op : String} (h : t.isOperator op = true) : t.text = op :=
  (isOperator_iff.1 h).2

theorem kind_of_isSeparator {sep : String} (h : t.isSeparator sep = true) :
    t.kind = .separator :=
  (isSeparator_iff.1 h).1

theorem text_of_isSeparator {sep : String} (h : t.isSeparator sep = true) : t.text = sep :=
  (isSeparator_iff.1 h).2

theorem kind_of_isKeyword {word : String} (h : t.isKeyword word = true) : t.kind = .keyword :=
  (isKeyword_iff.1 h).1

theorem text_of_isKeyword {word : String} (h : t.isKeyword word = true) : t.text = word :=
  (isKeyword_iff.1 h).2

theorem kind_of_isBlock {bracket : Char} (h : t.isBlock bracket = true) : t.kind = .block :=
  (isBlock_iff.1 h).1

theorem isOperator_eq_false (h : t.kind ≠ .operator) (op : String) : t.isOperator op = false := by
  rw [Bool.eq_false_iff]
  exact fun hop => h (kind_of_isOperator hop)

theorem isSeparator_eq_false (h : t.kind ≠ .separator) (sep : String) :
    t.isSeparator sep = false := by
  rw [Bool.eq_false_iff]
  exact fun hsep => h (kind_of_isSeparator hsep)

theorem isKeyword_eq_false (h : t.kind ≠ .keyword) (word : String) : t.isKeyword word = false := by
  rw [Bool.eq_false_iff]
  exact fun hword => h (kind_of_isKeyword hword)

theorem isBlock_eq_false (h : t.kind ≠ .block) (bracket : Char) : t.isBlock bracket = false := by
  rw [Bool.eq_false_iff]
  exact fun hblock => h (kind_of_isBlock hblock)

theorem isOperator_ne {op op' : String} (h : t.isOperator op = true) (hne : op ≠ op') :
    t.isOperator op' = false := by
  rw [Bool.eq_false_iff]
  intro h'
  exact hne ((text_of_isOperator h).symm.trans (text_of_isOperator h'))

theorem isSeparator_ne {sep sep' : String} (h : t.isSeparator sep = true) (hne : sep ≠ sep') :
    t.isSeparator sep' = false := by
  rw [Bool.eq_false_iff]
  intro h'
  exact hne ((text_of_isSeparator h).symm.trans (text_of_isSeparator h'))

theorem isBlock_ne {a b : Char} (h : t.isBlock a = true) (hne : a ≠ b) : t.isBlock b = false := by
  rw [Bool.eq_false_iff]
  intro h'
  have ha := (isBlock_iff.1 h).2
  have hb := (isBlock_iff.1 h').2
  rw [ha] at hb
  exact hne (Option.some.inj hb)

end Token

theorem Language.kind_of_marks {l : Language} {role : Capability} {t : Token}
    (h : l.marks role t = true) : t.kind = .keyword :=
  beq_iff_eq.1 (Bool.and_eq_true_iff.1 h).1

/-! ## Types -/

namespace TypeMachine

variable {l : Language} {allowVoid : Bool} {t : Token} {m : TypeMachine}

/-- A type starts with a word, and where the name comes first also with a block or a literal. -/
theorem kind_of_starts (h : starts l allowVoid t = true) :
    t.kind = .identifier ∨ t.kind = .keyword ∨
      l.memberOrder = .nameFirst ∧ (t.kind = .block ∨ t.kind = .string ∨ t.kind = .number) := by
  unfold starts at h
  split at h
  · exact Or.inl ‹_›
  · exact Or.inr (Or.inl ‹_›)
  · rw [Bool.and_eq_true, beq_iff_eq] at h
    exact Or.inr (Or.inr ⟨h.1, Or.inl ‹_›⟩)
  · exact Or.inr (Or.inr ⟨beq_iff_eq.1 h, Or.inr (Or.inl ‹_›)⟩)
  · exact Or.inr (Or.inr ⟨beq_iff_eq.1 h, Or.inr (Or.inr ‹_›)⟩)
  · exact absurd h Bool.false_ne_true

theorem isOperator_of_starts (h : starts l allowVoid t = true) (op : String) :
    t.isOperator op = false := by
  refine Token.isOperator_eq_false ?_ op
  rcases kind_of_starts h with h | h | ⟨-, h | h | h⟩ <;> rw [h] <;> decide

theorem isSeparator_of_starts (h : starts l allowVoid t = true) (sep : String) :
    t.isSeparator sep = false := by
  refine Token.isSeparator_eq_false ?_ sep
  rcases kind_of_starts h with h | h | ⟨-, h | h | h⟩ <;> rw [h] <;> decide

theorem isBlock_of_starts (h : starts l allowVoid t = true) (hl : l.memberOrder = .typeFirst)
    (bracket : Char) : t.isBlock bracket = false := by
  refine Token.isBlock_eq_false ?_ bracket
  rcases kind_of_starts h with h | h | ⟨hname, -⟩
  · rw [h]; decide
  · rw [h]; decide
  · rw [hl] at hname
    exact absurd hname (by decide)

/-- What a token that belongs to the type says about the states around it. -/
structure Goes (l : Language) (t : Token) (m m' : TypeMachine) : Prop where
  /-- Something has been read. -/
  notIdle : m' ≠ idle
  /-- An arrow is read by an arrow. -/
  arrow : m' = functionArrow → t.isOperator "=>" = true
  /-- Where the type comes first, a type is a word with one mark behind it. -/
  word : l.memberOrder = .typeFirst → (m = idle ∨ ∃ r, m = found r) →
    (∃ r, m' = found r ∨ m' = complete r) ∧
      (t.kind = .identifier ∨ t.kind = .keyword ∨ t.isOperator "?" = true ∨
        t.isOperator "..." = true)
  /-- A block in parentheses is read where a type may start. -/
  paren : t.isBlock '(' = true → l.memberOrder = .nameFirst ∧ (m = idle ∨ m = functionArrow)
  /-- No angle bracket is read. -/
  angle : t.isOperator "<" = false

/-- What the machine makes of a token. -/
inductive Accepts (l : Language) (t : Token) (m : TypeMachine) : Step TypeMachine → Prop where
  /-- The token belongs to the type, which may go on. -/
  | goes {m' : TypeMachine} {malformed : List MalformedType} (h : Goes l t m m')
      (notEnded : m'.isComplete = false) (notFailed : m'.isFailed = false) :
      Accepts l t m ⟨m', true, malformed⟩
  /-- The token ends the type. -/
  | ends {r : TypeRef} {malformed : List MalformedType} (h : Goes l t m (complete r)) :
      Accepts l t m ⟨complete r, true, malformed⟩
  /-- The type has ended in front of the token. -/
  | left {r : TypeRef} {malformed : List MalformedType} :
      Accepts l t m ⟨complete r, false, malformed⟩
  /-- There is no type. -/
  | fails {taken : Bool} {malformed : List MalformedType} : Accepts l t m ⟨failed, taken, malformed⟩

theorem accepts_find {text : String} (h : ∀ r, Goes l t m (found r)) :
    Accepts l t m (find text) := by
  unfold find
  split
  · exact .goes (h _) rfl rfl
  · exact .fails

/-- A word or a literal at the start of a type. -/
theorem goes_start (h : starts l allowVoid t = true) (hm : m = idle ∨ m = functionArrow)
    (r : TypeRef) : Goes l t m (found r) where
  notIdle := by simp
  arrow := by simp
  word := by
    intro hl _
    refine ⟨⟨r, Or.inl rfl⟩, ?_⟩
    rcases kind_of_starts h with h | h | ⟨hname, -⟩
    · exact Or.inl h
    · exact Or.inr (Or.inl h)
    · rw [hl] at hname
      exact absurd hname (by decide)
  paren := by
    intro hparen
    refine ⟨?_, hm⟩
    cases hl : l.memberOrder with
    | typeFirst =>
        rw [isBlock_of_starts h hl] at hparen
        exact absurd hparen Bool.false_ne_true
    | nameFirst => rfl
  angle := isOperator_of_starts h "<"

/-- An operator behind a type. -/
theorem goes_operator {m' : TypeMachine} {op : String} (h : t.isOperator op = true)
    (hop : op ≠ "<") (hidle : m' ≠ idle) (harrow : m' = functionArrow → op = "=>")
    (hword : l.memberOrder = .typeFirst → (m = idle ∨ ∃ r, m = found r) →
      (∃ r, m' = found r ∨ m' = complete r) ∧ (op = "?" ∨ op = "...")) : Goes l t m m' where
  notIdle := hidle
  arrow := by
    intro hm
    rw [← harrow hm]
    exact h
  word := by
    intro hl hm
    obtain ⟨hm', hop | hop⟩ := hword hl hm
    · exact ⟨hm', Or.inr (Or.inr (Or.inl (hop ▸ h)))⟩
    · exact ⟨hm', Or.inr (Or.inr (Or.inr (hop ▸ h)))⟩
  paren := by
    intro hparen
    have hkind := Token.kind_of_isOperator h
    rw [Token.kind_of_isBlock hparen] at hkind
    exact absurd hkind (by decide)
  angle := Token.isOperator_ne h hop

theorem accepts_accept (l : Language) (allowVoid : Bool) (m : TypeMachine) (t : Token) :
    Accepts l t m (m.accept l allowVoid t) := by
  cases m with
  | idle =>
      rw [accept]
      split
      · exact .fails
      · rename_i hstarts
        have hstarts : starts l allowVoid t = true := by simpa using hstarts
        split
        · rename_i hparen
          have hgoes := goes_start hstarts (Or.inl rfl) default
          refine .goes ⟨by simp, by simp, ?_, hgoes.paren, hgoes.angle⟩ rfl rfl
          intro hl _
          rw [isBlock_of_starts hstarts hl] at hparen
          exact absurd hparen Bool.false_ne_true
        · exact accepts_find fun r => goes_start hstarts (Or.inl rfl) r
  | found r =>
      rw [accept]
      split
      · rename_i h
        rw [Bool.and_eq_true] at h
        exact .ends (goes_operator h.2 (by decide) (by simp) (by simp)
          fun _ _ => ⟨⟨_, Or.inr rfl⟩, Or.inl rfl⟩)
      · split
        · rename_i h
          exact .ends (goes_operator h (by decide) (by simp) (by simp)
            fun _ _ => ⟨⟨_, Or.inr rfl⟩, Or.inr rfl⟩)
        · split
          · rename_i h
            rw [Bool.and_eq_true, beq_iff_eq] at h
            refine .goes (goes_operator h.2 (by decide) (by simp) (by simp) ?_) rfl rfl
            intro hl
            rw [h.1] at hl
            exact absurd hl (by decide)
          · exact .left
  | union r =>
      rw [accept]
      split
      · rename_i h
        have hkind : t.kind = .keyword := by
          rcases Bool.or_eq_true_iff.1 h with h | h
          · exact Token.kind_of_isKeyword h
          · exact Token.kind_of_isKeyword h
        refine .goes ⟨by simp, by simp, fun _ hm => by simp at hm, ?_, ?_⟩ rfl rfl
        · intro hparen
          rw [Token.kind_of_isBlock hparen] at hkind
          exact absurd hkind (by decide)
        · exact Token.isOperator_eq_false (by rw [hkind]; decide) "<"
      · split
        · exact .fails
        · rename_i h
          rw [Bool.or_eq_true, not_or, Bool.not_eq_true', Bool.not_eq_false, Bool.not_eq_true] at h
          refine .goes ⟨by simp, by simp, fun _ hm => by simp at hm, ?_,
            isOperator_of_starts h.1 "<"⟩ rfl rfl
          intro hparen
          rw [h.2] at hparen
          exact absurd hparen Bool.false_ne_true
  | functionParams =>
      rw [accept]
      split
      · rename_i h
        exact .goes (goes_operator h (by decide) (by simp) (fun _ => rfl)
          (fun _ hm => by simp at hm)) rfl rfl
      · exact .fails
  | functionArrow =>
      rw [accept]
      split
      · rename_i h
        refine accepts_find fun r => ?_
        rcases Bool.or_eq_true_iff.1 h with h | h
        · exact goes_start h (Or.inr rfl) r
        · have hkind := Token.kind_of_isKeyword h
          refine ⟨by simp, by simp, fun _ hm => by simp at hm, ?_, ?_⟩
          · intro hparen
            rw [Token.kind_of_isBlock hparen] at hkind
            exact absurd hkind (by decide)
          · exact Token.isOperator_eq_false (by rw [hkind]; decide) "<"
      · exact .fails
  | complete r => exact .left
  | failed => exact .fails

end TypeMachine

end Outline

import Outline.Proofs.Written.Remnants

/-!
# The tokens of a written declaration

* `Written.exists_front`, `Written.word_first` — a declaration starts with a word.
* `Written.inner_front` — in front of its last token it has words, operators, commas and blocks in
  parentheses only.
* `Written.isBody_stop` — its last token is a semicolon or a block in braces.
-/

namespace Outline

/-! ## Tokens inside a declaration -/

/-- The tokens in front of the last one. -/
inductive IsInner (t : TokenTree) : Prop where
  /-- A word. -/
  | word (h : t.kind = .keyword ∨ t.kind = .identifier)
  /-- An operator. -/
  | operator (h : t.kind = .operator)
  /-- A comma. -/
  | comma (h : t.value.isSeparator "," = true)
  /-- A block in parentheses. -/
  | parens (h : t.value.isBlock '(' = true)

namespace IsInner

variable {t : TokenTree}

theorem of_marks {l : Language} {role : Capability} (h : l.marks role t.value = true) : IsInner t :=
  .word (Or.inl (Language.kind_of_marks h))

theorem notComment (h : IsInner t) : t.kind ≠ .comment := by
  cases h with
  | word h => rcases h with h | h <;> rw [h] <;> decide
  | operator h => rw [h]; decide
  | comma h => rw [TokenTree.kind, Token.kind_of_isSeparator h]; decide
  | parens h => rw [TokenTree.kind, Token.kind_of_isBlock h]; decide

theorem notSeparator (h : IsInner t) {sep : String} (hsep : sep ≠ ",") :
    t.value.isSeparator sep = false := by
  cases h with
  | word h =>
      refine Token.isSeparator_eq_false ?_ sep
      show t.kind ≠ _
      rcases h with h | h <;> rw [h] <;> decide
  | operator h => exact Token.isSeparator_eq_false (by show t.kind ≠ _; rw [h]; decide) sep
  | comma h => exact Token.isSeparator_ne h hsep.symm
  | parens h => exact Token.isSeparator_eq_false (by rw [Token.kind_of_isBlock h]; decide) sep

theorem notBlock (h : IsInner t) {b : Char} (hb : b ≠ '(') : t.value.isBlock b = false := by
  cases h with
  | word h =>
      refine Token.isBlock_eq_false ?_ b
      show t.kind ≠ _
      rcases h with h | h <;> rw [h] <;> decide
  | operator h => exact Token.isBlock_eq_false (by show t.kind ≠ _; rw [h]; decide) b
  | comma h => exact Token.isBlock_eq_false (by rw [Token.kind_of_isSeparator h]; decide) b
  | parens h => exact Token.isBlock_ne h hb.symm

/-- It does not end the declaration. -/
theorem notBody (h : IsInner t) : MethodMachine.isBody t.value = false := by
  rw [MethodMachine.isBody, h.notSeparator (by decide), h.notBlock (by decide)]
  rfl

end IsInner

theorem WrittenType.inner {l : Language} (hl : l.memberOrder = .typeFirst) {allowVoid : Bool}
    (r : WrittenType l allowVoid) {t : TokenTree} (ht : t ∈ r.tokens) : IsInner t := by
  rcases List.mem_cons.1 ht with rfl | ht
  · exact .word (TypeMachine.word_of_starts hl r.starts)
  · exact .operator (Token.kind_of_isOperator (r.marked t (Option.mem_toList.1 ht)).2)

theorem Names.inner {ts : List TokenTree} (h : Names ts) {t : TokenTree} (ht : t ∈ ts) :
    IsInner t := by
  induction h with
  | one hname =>
      obtain rfl := List.mem_singleton.1 ht
      exact .word (Or.inr hname)
  | cons hname hcomma _ ih =>
      rcases List.mem_cons.1 ht with rfl | ht
      · exact .word (Or.inr hname)
      · rcases List.mem_cons.1 ht with rfl | ht
        · exact .comma hcomma
        · exact ih ht

theorem Clause.inner {l : Language} {ts : List TokenTree} (h : Clause l ts) {t : TokenTree}
    (ht : t ∈ ts) : IsInner t := by
  cases h with
  | none => exact absurd ht List.not_mem_nil
  | throws hl hword hnames =>
      rcases List.mem_cons.1 ht with rfl | ht
      · exact .word (Or.inl (Token.kind_of_isKeyword hword))
      · exact hnames.inner ht
  | base hl hcolon hword harguments =>
      simp only [List.mem_cons, List.not_mem_nil, or_false] at ht
      rcases ht with rfl | rfl | rfl
      · exact .operator (Token.kind_of_isOperator hcolon)
      · exact .word (Or.inl (Token.kind_of_isKeyword hword))
      · exact .parens harguments

theorem Bases.inner {l : Language} {ts : List TokenTree} (h : Bases l ts) {t : TokenTree}
    (ht : t ∈ ts) : IsInner t := by
  induction h with
  | none => exact absurd ht List.not_mem_nil
  | @cons word names rest hword hnames hrest ih =>
      rcases List.mem_append.1 ht with ht | ht
      · rcases List.mem_cons.1 ht with rfl | ht
        · cases l with
          | csharp => exact .operator (Token.kind_of_isOperator hword)
          | java => exact .of_marks hword
          | typescript => exact .of_marks hword
        · exact hnames.inner ht
      · exact ih ht

/-! ## The first and the last token of a declaration -/

namespace Written

variable {o : Owner}

theorem isBody_stop (w : Written o) : MethodMachine.isBody w.stop.value = true := by
  cases w with
  | field f => exact Bool.or_eq_true_iff.2 (f.stops.imp_right And.right)
  | method m => exact m.stops
  | nested n => exact Bool.or_eq_true_iff.2 (Or.inr n.stops)

/-- The tokens in front of the last one start with the first one. -/
theorem exists_front (w : Written o) : ∃ rest, w.front = w.first :: rest := by
  cases w with
  | field f =>
      simp only [front, WrittenField.front, first]
      cases f.modifiers with
      | nil => exact ⟨_, rfl⟩
      | cons m ms => exact ⟨_, rfl⟩
  | method m =>
      simp only [front, WrittenMethod.front, first]
      cases m.modifiers with
      | nil =>
          cases m.result? with
          | none => exact ⟨_, rfl⟩
          | some r => exact ⟨_, rfl⟩
      | cons m ms => exact ⟨_, rfl⟩
  | nested n =>
      simp only [front, WrittenNested.front, first]
      cases n.modifiers with
      | nil => exact ⟨_, rfl⟩
      | cons m ms => exact ⟨_, rfl⟩

/-- The first token is a word. -/
theorem word_first (hl : o.language.memberOrder = .typeFirst) (w : Written o) :
    w.first.kind = .keyword ∨ w.first.kind = .identifier := by
  cases w with
  | field f =>
      simp only [first]
      cases hm : f.modifiers with
      | nil => exact TypeMachine.word_of_starts hl f.type.starts
      | cons m ms =>
          exact Or.inl (Language.kind_of_marks (f.modified m (by rw [hm]; exact List.mem_cons_self)))
  | method m =>
      simp only [first]
      cases hm : m.modifiers with
      | nil =>
          cases m.result? with
          | none => exact Or.inr m.isName.identifier
          | some r => exact TypeMachine.word_of_starts hl r.starts
      | cons x xs =>
          exact Or.inl (Language.kind_of_marks (m.modified x (by rw [hm]; exact List.mem_cons_self)))
  | nested n =>
      simp only [first]
      cases hm : n.modifiers with
      | nil => exact Or.inl (Language.kind_of_marks n.introduces)
      | cons m ms =>
          exact Or.inl (Language.kind_of_marks (n.modified m (by rw [hm]; exact List.mem_cons_self)))

/-! ## The tokens in between -/

theorem inner_field {l : Language} (hl : l.memberOrder = .typeFirst) (f : WrittenField l) :
    ∀ t ∈ f.front, IsInner t := by
  intro t ht
  simp only [WrittenField.front, List.mem_append, List.mem_singleton] at ht
  rcases ht with (ht | ht) | rfl
  · exact .of_marks (f.modified t ht)
  · exact f.type.inner hl ht
  · exact .word (Or.inr f.isName.identifier)

theorem inner_method (hl : o.language.memberOrder = .typeFirst) (m : WrittenMethod o) :
    ∀ t ∈ m.front, IsInner t := by
  intro t ht
  simp only [WrittenMethod.front, List.mem_append, List.mem_cons] at ht
  rcases ht with (ht | ht) | rfl | rfl | ht
  · exact .of_marks (m.modified t ht)
  · cases hr : m.result? with
    | none => simp [hr] at ht
    | some r =>
        rw [hr] at ht
        exact r.inner hl ht
  · exact .word (Or.inr m.isName.identifier)
  · exact .parens m.params.isBlock
  · exact m.isClause.inner ht

theorem inner_nested {l : Language} (n : WrittenNested l) : ∀ t ∈ n.front, IsInner t := by
  intro t ht
  simp only [WrittenNested.front, List.mem_append, List.mem_cons] at ht
  rcases ht with ht | rfl | rfl | ht
  · exact .of_marks (n.modified t ht)
  · exact .of_marks n.introduces
  · exact .word (Or.inr n.isName)
  · exact n.isBases.inner ht

/-- In front of its last token a declaration has inner tokens only. -/
theorem inner_front (hl : o.language.memberOrder = .typeFirst) (w : Written o) :
    ∀ t ∈ w.front, IsInner t := by
  cases w with
  | field f => exact inner_field hl f
  | method m => exact inner_method hl m
  | nested n => exact inner_nested n

end Written

end Outline


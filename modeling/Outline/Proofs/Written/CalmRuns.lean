import Outline.Proofs.Written.Grammar
import Outline.Proofs.Written.MethodSteps

/-!
# Runs of tokens in which no member ends

The machines that read fields and methods read the parts of a declaration that they do not
recognize without ending a member, as long as no part brings them too close to the end of one.

* `Extractor.Settles` — a run in which a machine ends nothing, with a bound on its rank behind it.
* `Extractor.settles_type`, `Extractor.settles_clause`, … — one lemma for each part.
-/

namespace Outline

namespace Extractor

/-- The rank of a machine that reads fields or methods. -/
def rank : Extractor → Nat
  | field m => m.rank
  | method m => m.rank
  | _ => 3

variable {o : Owner} {t : TokenTree} {ts us : List TokenTree} {e : Extractor} {n k : Nat}

/-! ## One token -/

/-- The tokens of declarations: no comment, no at sign and no angle bracket. -/
structure Ordinary (t : TokenTree) : Prop where
  /-- The token is no comment. -/
  notComment : t.kind ≠ .comment
  /-- It is no at sign. -/
  notSign : t.value.isSeparator "@" = false
  /-- It is no angle bracket. -/
  notAngle : t.value.isOperator "<" = false

theorem ordinary_of_kind (h : t.kind = .keyword ∨ t.kind = .identifier ∨ t.kind = .block) :
    Ordinary t where
  notComment := by rcases h with h | h | h <;> rw [h] <;> decide
  notSign := Token.isSeparator_eq_false
    (by show t.kind ≠ _; rcases h with h | h | h <;> rw [h] <;> decide) "@"
  notAngle := Token.isOperator_eq_false
    (by show t.kind ≠ _; rcases h with h | h | h <;> rw [h] <;> decide) "<"

theorem ordinary_of_isOperator {op : String} (h : t.value.isOperator op = true) (hop : op ≠ "<") :
    Ordinary t where
  notComment := by
    show t.value.kind ≠ _
    rw [Token.kind_of_isOperator h]
    decide
  notSign := Token.isSeparator_eq_false (by rw [Token.kind_of_isOperator h]; decide) "@"
  notAngle := Token.isOperator_ne h hop

/-- A token brings a machine at most one rank further. -/
theorem calm_step (hl : o.language.memberOrder = .typeFirst) (ht : Ordinary t) (he : e.rank ≤ n)
    (hn : n ≤ 2) (htail : n = 2 → FieldMachine.isTail t.value = false)
    (hparen : n ≠ 0 → t.value.isBlock '(' = false) :
    ∃ e' taken, respond o t e = ⟨e', [], taken⟩ ∧ e'.rank ≤ rankAfter o.language t.value n ∧
      e'.reset = e.reset := by
  cases e with
  | field m =>
      obtain ⟨m', taken, hm', hrank⟩ := field_calm hl ht.notComment ht.notSign he hn htail
      exact ⟨field m', taken, hm', hrank, rfl⟩
  | method m =>
      obtain ⟨m', taken, hm', hrank⟩ :=
        method_calm hl ht.notComment ht.notSign ht.notAngle hparen he hn
      exact ⟨method m', taken, hm', hrank, rfl⟩
  | _ => exact absurd (Nat.le_trans he hn) (by decide : ¬ 3 ≤ 2)

/-- A token that nothing starts with makes a machine idle. -/
theorem calm_leaves (hl : o.language.memberOrder = .typeFirst) (he : e.rank ≤ 1)
    (hkind : t.kind = .separator ∨ t.kind = .block) (hat : t.value.isSeparator "@" = false)
    (hbracket : t.value.isBlock '[' = false) (hparen : t.value.isBlock '(' = false) :
    respond o t e = ⟨e.reset, [], false⟩ := by
  cases e with
  | field m => exact field_calm_leaves hl he hkind hat hbracket
  | method m =>
      exact method_calm_leaves hl (Nat.le_succ_of_le he) hkind hat hbracket fun _ => hparen
  | _ => exact absurd he (by decide : ¬ 3 ≤ 1)

/-! ## Runs -/

/-- A machine reads a run of tokens without ending anything, and has at most the rank `n` behind
it. -/
def Settles (o : Owner) (e : Extractor) (ts : List TokenTree) (n : Nat) : Prop :=
  ∃ e', Passes o e ts e' ∧ e'.rank ≤ n ∧ e'.reset = e.reset

theorem Settles.nil (he : e.rank ≤ n) : Settles o e [] n := ⟨e, .nil e, he, rfl⟩

theorem Settles.mono (h : Settles o e ts n) (hk : n ≤ k) : Settles o e ts k := by
  obtain ⟨e', hpasses, hrank, hreset⟩ := h
  exact ⟨e', hpasses, Nat.le_trans hrank hk, hreset⟩

/-- A run behind another one. -/
theorem Settles.append (h : Settles o e ts n)
    (h' : ∀ e', e'.rank ≤ n → Settles o e' us k) : Settles o e (ts ++ us) k := by
  obtain ⟨e', hpasses, hrank, hreset⟩ := h
  obtain ⟨last, hrest, hlast, hlast'⟩ := h' e' hrank
  exact ⟨last, hpasses.append hrest, hlast, hlast'.trans hreset⟩

theorem settles_step (hl : o.language.memberOrder = .typeFirst) (ht : Ordinary t)
    (he : e.rank ≤ n) (hn : n ≤ 2) (htail : n = 2 → FieldMachine.isTail t.value = false)
    (hparen : n ≠ 0 → t.value.isBlock '(' = false) :
    Settles o e [t] (rankAfter o.language t.value n) := by
  obtain ⟨e', taken, hstep, hrank, hreset⟩ := calm_step hl ht he hn htail hparen
  exact ⟨e', Passes.one hstep, hrank, hreset⟩

/-- A token in front of a run. -/
theorem Settles.cons (h : Settles o e [t] n) (h' : ∀ e', e'.rank ≤ n → Settles o e' us k) :
    Settles o e (t :: us) k :=
  Settles.append h h'

/-! ## Parts of declarations -/

theorem isTail_of_word (h : t.kind = .keyword ∨ t.kind = .identifier) :
    FieldMachine.isTail t.value = false := by
  have hop : ∀ op, t.value.isOperator op = false := Token.isOperator_eq_false
    (by show t.kind ≠ _; rcases h with h | h <;> rw [h] <;> decide)
  have hsep : ∀ sep, t.value.isSeparator sep = false := Token.isSeparator_eq_false
    (by show t.kind ≠ _; rcases h with h | h <;> rw [h] <;> decide)
  have hblock : ∀ b, t.value.isBlock b = false := Token.isBlock_eq_false
    (by show t.kind ≠ _; rcases h with h | h <;> rw [h] <;> decide)
  simp [FieldMachine.isTail, FieldMachine.isEnd, hop, hsep, hblock]

theorem isParen_of_word (h : t.kind = .keyword ∨ t.kind = .identifier) :
    t.value.isBlock '(' = false :=
  Token.isBlock_eq_false (by show t.kind ≠ _; rcases h with h | h <;> rw [h] <;> decide) '('

/-- A word brings a machine one rank further if it may belong to a type. -/
theorem settles_word (hl : o.language.memberOrder = .typeFirst)
    (h : t.kind = .keyword ∨ t.kind = .identifier) (he : e.rank ≤ n) (hn : n ≤ 2) :
    Settles o e [t] (rankAfter o.language t.value n) :=
  settles_step hl (ordinary_of_kind (h.elim Or.inl (Or.inr ∘ Or.inl))) he hn
    (fun _ => isTail_of_word h) fun _ => isParen_of_word h

theorem settles_identifier (hl : o.language.memberOrder = .typeFirst) (h : t.kind = .identifier)
    (he : e.rank ≤ n) (hn : n ≤ 2) : Settles o e [t] (min (n + 1) 2) := by
  have := settles_word hl (Or.inr h) he hn
  rwa [rankAfter, if_pos h] at this

theorem rankAfter_keyword {l : Language} (h : t.kind = .keyword)
    (hstarts : TypeMachine.starts l true t.value = false) : rankAfter l t.value n = 0 := by
  have hop : ∀ op, t.value.isOperator op = false :=
    Token.isOperator_eq_false (by show t.kind ≠ _; rw [h]; decide)
  rw [rankAfter, if_neg (by show t.kind ≠ _; rw [h]; decide), hstarts, hop, hop]
  rfl

/-- A keyword that is no type takes a machine back. -/
theorem settles_keyword (hl : o.language.memberOrder = .typeFirst) (h : t.kind = .keyword)
    (hstarts : TypeMachine.starts o.language true t.value = false) (he : e.rank ≤ 2) :
    Settles o e [t] 0 := by
  have := settles_word hl (Or.inl h) he (Nat.le_refl 2)
  rwa [rankAfter_keyword h hstarts] at this

/-- A token with an outer role is a keyword that is no type. -/
theorem not_starts_of_marks {l : Language} {role : Capability} (hl : l.memberOrder = .typeFirst)
    (hrole : role ∈ Language.outerRoles) (h : l.marks role t.value = true) :
    TypeMachine.starts l true t.value = false := by
  rw [Bool.eq_false_iff]
  intro hstarts
  rw [Language.not_marks_of_starts hl hrole hstarts] at h
  exact absurd h Bool.false_ne_true

theorem settles_marked {role : Capability} (hl : o.language.memberOrder = .typeFirst)
    (hrole : role ∈ Language.outerRoles) (h : o.language.marks role t.value = true)
    (he : e.rank ≤ 2) : Settles o e [t] 0 :=
  settles_keyword hl (Language.kind_of_marks h) (not_starts_of_marks hl hrole h) he

/-- Modifiers. -/
theorem settles_modifiers {role : Capability} (hl : o.language.memberOrder = .typeFirst)
    (hrole : role ∈ Language.outerRoles) (h : ∀ m ∈ ts, o.language.marks role m.value = true)
    (he : e.rank ≤ n) (hn : n ≤ 2) : Settles o e ts n := by
  induction ts generalizing e with
  | nil => exact .nil he
  | cons t ts ih =>
      refine (settles_marked hl hrole (h t List.mem_cons_self) (Nat.le_trans he hn)).cons ?_
      intro e' he'
      exact ih (fun m hm => h m (List.mem_cons_of_mem _ hm)) (by omega)

/-- A type. -/
theorem settles_type {allowVoid : Bool} (hl : o.language.memberOrder = .typeFirst)
    (r : WrittenType o.language allowVoid) (he : e.rank ≤ n) (hn : n ≤ 1) :
    Settles o e r.tokens (n + 1) := by
  have hword := TypeMachine.word_of_starts hl r.starts
  have hle : rankAfter o.language r.word.value n ≤ n + 1 := by
    unfold rankAfter
    split
    · exact Nat.min_le_left _ _
    · split <;> omega
  refine ((settles_word hl hword he (by omega)).mono hle).cons fun e' he' => ?_
  cases hmark : r.mark? with
  | none => exact .nil he'
  | some q =>
      obtain ⟨-, hq⟩ := r.marked q (by rw [hmark]; rfl)
      have htail : FieldMachine.isTail q.value = false := by
        have hkind := Token.kind_of_isOperator hq
        have hsep : ∀ sep, q.value.isSeparator sep = false :=
          Token.isSeparator_eq_false (by rw [hkind]; decide)
        have hblock : ∀ b, q.value.isBlock b = false :=
          Token.isBlock_eq_false (by rw [hkind]; decide)
        simp [FieldMachine.isTail, FieldMachine.isEnd, hsep, hblock,
          Token.isOperator_ne hq (by decide : "?" ≠ "="),
          Token.isOperator_ne hq (by decide : "?" ≠ "=>")]
      have hstep := settles_step hl (ordinary_of_isOperator hq (by decide)) he' (by omega)
        (fun _ => htail) fun _ =>
          Token.isBlock_eq_false (by rw [Token.kind_of_isOperator hq]; decide) '('
      refine hstep.mono ?_
      have hkind := Token.kind_of_isOperator hq
      rw [rankAfter, if_neg (by rw [hkind]; decide)]
      split <;> omega

/-- A list of identifiers. -/
theorem settles_names (hl : o.language.memberOrder = .typeFirst) (h : Names ts)
    (he : e.rank = 0) : Settles o e ts 1 := by
  induction h generalizing e with
  | one hname => exact settles_identifier hl hname (Nat.le_of_eq he) (by decide)
  | @cons name comma rest hname hcomma hrest ih =>
      have hkind := Token.kind_of_isSeparator hcomma
      refine (settles_identifier hl hname (Nat.le_of_eq he) (by decide)).cons fun e' he' => ?_
      have hleaves := calm_leaves (t := comma) hl he' (Or.inl hkind)
        (Token.isSeparator_ne hcomma (by decide)) (Token.isBlock_eq_false (by rw [hkind]; decide) '[')
        (Token.isBlock_eq_false (by rw [hkind]; decide) '(')
      have hreset : Settles o e' [comma] 0 := by
        refine ⟨e'.reset, Passes.one hleaves, ?_, ?_⟩
        · cases e' <;> first | exact Nat.le_refl 0 | exact absurd he' (by decide : ¬ 3 ≤ 1)
        · cases e' <;> rfl
      exact hreset.cons fun e'' he'' => ih (Nat.le_zero.1 he'')

/-- An operator that belongs to no type takes a machine back. -/
theorem settles_colon (hl : o.language.memberOrder = .typeFirst)
    (h : t.value.isOperator ":" = true) (he : e.rank ≤ 1) : Settles o e [t] 0 := by
  have hkind := Token.kind_of_isOperator h
  have hstarts : TypeMachine.starts o.language true t.value = false := by
    rw [TypeMachine.starts, hkind]
  have hrank : rankAfter o.language t.value 1 = 0 := by
    rw [rankAfter, if_neg (by rw [hkind]; decide), hstarts,
      Token.isOperator_ne h (by decide : ":" ≠ "?"), Token.isOperator_ne h (by decide : ":" ≠ "...")]
    rfl
  rw [← hrank]
  exact settles_step hl (ordinary_of_isOperator h (by decide)) he (by decide)
    (fun h => absurd h (by decide)) fun _ => Token.isBlock_eq_false (by rw [hkind]; decide) '('

/-- Base types. -/
theorem settles_bases (hl : o.language.memberOrder = .typeFirst) (h : Bases o.language ts)
    (he : e.rank ≤ 1) : Settles o e ts 1 := by
  induction h generalizing e with
  | none => exact .nil he
  | @cons word names rest hword hnames hrest ih =>
      have hopens : Settles o e [word] 0 := by
        cases hlanguage : o.language with
        | csharp =>
            rw [hlanguage] at hword
            exact settles_colon hl hword he
        | java =>
            have hmark : o.language.marks .inheritance word.value = true := by
              rw [hlanguage] at hword ⊢
              exact hword
            exact settles_marked hl (by decide) hmark (Nat.le_succ_of_le he)
        | typescript =>
            rw [hlanguage] at hl
            exact absurd hl (by decide)
      refine (hopens.cons fun e' he' => ?_).append fun e' he' => ih he'
      exact settles_names hl hnames (Nat.le_zero.1 he')

/-- A keyword of the given text that is no type takes a machine back. -/
theorem settles_isKeyword {word : String} (hl : o.language.memberOrder = .typeFirst)
    (h : t.value.isKeyword word = true) (htype : o.language.has .type word = false)
    (hvoid : word ≠ "void") (he : e.rank ≤ 2) : Settles o e [t] 0 := by
  have hkind : t.value.kind = .keyword := Token.kind_of_isKeyword h
  have htext : t.value.text = word := beq_iff_eq.1 (Bool.and_eq_true_iff.1 h).2
  refine settles_keyword hl hkind ?_ he
  rw [TypeMachine.starts, hkind, htext]
  simp [htype, hvoid]

/-- A clause, in front of which nothing is read. -/
theorem settles_clause (hl : o.language.memberOrder = .typeFirst) (h : Clause o.language ts)
    (he : e.rank = 0) : Settles o e ts 1 := by
  cases h with
  | none => exact .nil (by omega)
  | @throws word names hlanguage hword hnames =>
      refine (settles_isKeyword hl hword ?_ (by decide) (by omega)).cons fun e' he' => ?_
      · rw [hlanguage]
        decide +kernel
      · exact settles_names hl hnames (Nat.le_zero.1 he')
  | @base colon word arguments hlanguage hcolon hword harguments =>
      refine (settles_colon hl hcolon (by omega)).cons fun e' he' => ?_
      refine (settles_isKeyword hl hword ?_ (by decide) (by omega)).cons fun e' he' => ?_
      · rw [hlanguage]
        decide +kernel
      · have hkind := Token.kind_of_isBlock harguments
        refine (settles_step hl (ordinary_of_kind (Or.inr (Or.inr hkind))) he' (by decide)
          (fun h => absurd h (by decide)) fun h => absurd rfl h).mono ?_
        rw [rankAfter, if_neg (by rw [hkind]; decide)]
        split <;> omega

/-- A declaration inside the declaration, up to its body. -/
theorem settles_nested (hl : o.language.memberOrder = .typeFirst)
    (n : WrittenNested o.language) (he : e.rank ≤ 1) : Settles o e n.front 1 := by
  refine (settles_modifiers hl (by decide) n.modified he (by decide)).append fun e' he' => ?_
  refine (settles_marked hl (by decide) n.introduces (Nat.le_succ_of_le he')).cons fun e' he' => ?_
  refine (settles_identifier hl n.isName he' (by decide)).cons fun e' he' => ?_
  exact settles_bases hl n.isBases he'

end Extractor

end Outline

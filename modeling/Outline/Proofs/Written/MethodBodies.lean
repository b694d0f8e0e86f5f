import Outline.Proofs.Written.FieldBodies
import Outline.Proofs.Written.Parameters

/-!
# Declarations as the machine that reads methods reads them

* `Extractor.method_written` — a written method is read as it is written.
* `Extractor.method_reads` — the machine that reads methods reads what `Written.readMethod?` tells.
-/

namespace Outline

namespace Extractor

variable {o : Owner} {t : TokenTree} {ts front : List TokenTree} {stop : TokenTree}

/-! ## Methods -/

theorem method_modifiers {ms : List TokenTree}
    (h : ∀ m ∈ ms, o.language.marks .methodModifier m.value = true) (started : Bool)
    (texts : List String) :
    ∃ started', Passes o (method (.head started none texts [])) ms
      (method (.head started' none (texts ++ ms.map (·.text)) [])) := by
  induction ms generalizing started texts with
  | nil => exact ⟨started, by simpa using Feeds.nil _⟩
  | cons m ms ih =>
      have hstep := method_modifier (h m List.mem_cons_self) started texts
      obtain ⟨started', hrest⟩ :=
        ih (fun m hm => h m (List.mem_cons_of_mem _ hm)) true (texts ++ [m.text])
      rw [List.append_assoc] at hrest
      exact ⟨started', Passes.cons hstep hrest⟩

theorem method_written_type (hl : o.language.memberOrder = .typeFirst)
    (r : WrittenType o.language true) (started : Bool) (texts : List String)
    (typeParams : List TypeRef) :
    ∃ m, Passes o (method (.head started none texts typeParams)) r.tokens (method m) ∧
      MethodTyped m texts r.ref typeParams := by
  have hword := method_type hl r.starts r.parsed started texts typeParams
  unfold WrittenType.tokens WrittenType.ref
  cases hmark : r.mark? with
  | none => exact ⟨_, .one hword, Or.inl ⟨_, rfl⟩⟩
  | some q =>
      obtain ⟨m, hstep, hm⟩ := method_mark hl (r.marked q (by rw [hmark]; rfl)).2
      exact ⟨m, .cons hword (.one hstep), hm⟩

/-- The parameters of a method are read, and perhaps a clause behind them. -/
def MethodOpen (m : MethodMachine) (d : MethodDraft) : Prop :=
  ∃ line, m = .afterParams { d with line } ∨ m = .clause { d with line }

/-- Tokens of a clause, the first of which is read. -/
theorem method_clause_rest {d : MethodDraft} (hl : o.language.memberOrder = .typeFirst)
    (h : ∀ t ∈ ts, t.kind ≠ .comment ∧ MethodMachine.isBody t.value = false) (line : Nat) :
    ∃ line', Passes o (method (.clause { d with line })) ts
      (method (.clause { d with line := line' })) := by
  induction ts generalizing line with
  | nil => exact ⟨line, .nil _⟩
  | cons t ts ih =>
      obtain ⟨ht, hbody⟩ := h t List.mem_cons_self
      obtain ⟨next, hstep⟩ := method_within (d := { d with line }) hl ht hbody
      obtain ⟨line', hrest⟩ := ih (fun t ht => h t (List.mem_cons_of_mem _ ht)) next
      exact ⟨line', Passes.cons hstep hrest⟩

/-- A clause. -/
theorem method_clause_tokens {d : MethodDraft} (hl : o.language.memberOrder = .typeFirst)
    (hfirst : MethodMachine.startsClause t.value = true)
    (harrow : t.value.isOperator "=>" = false)
    (h : ∀ x ∈ t :: ts, x.kind ≠ .comment ∧ MethodMachine.isBody x.value = false) :
    ∃ m, Passes o (method (.afterParams d)) (t :: ts) (method m) ∧ MethodOpen m d := by
  obtain ⟨ht, hbody⟩ := h t List.mem_cons_self
  obtain ⟨line, hstep⟩ := method_clause (d := d) hl ht hfirst hbody harrow
  obtain ⟨line', hrest⟩ :=
    method_clause_rest (d := d) hl (fun x hx => h x (List.mem_cons_of_mem _ hx)) line
  exact ⟨_, Passes.cons hstep hrest, line', Or.inr rfl⟩

/-- What ends behind the parameters. -/
theorem deliver_method (d : MethodDraft) (line : Nat) (h : Harvest) :
    [method (.complete { d with line })].foldl (deliver o) h =
      h.takeMethod (some (d.method o [] [])) := rfl

/-- Behind the parameters, a clause and the last token end the method. -/
theorem method_finish (d : MethodDraft) (hl : o.language.memberOrder = .typeFirst)
    (hfirst : ∀ t ∈ ts.head?, MethodMachine.startsClause t.value = true ∧
      t.value.isOperator "=>" = false)
    (hinner : ∀ t ∈ ts, IsInner t) (hstop : MethodMachine.isBody stop.value = true) :
    Reads o (method (.afterParams d)) ts stop (·.takeMethod (some (d.method o [] []))) true := by
  have hopen : ∃ m, Passes o (method (.afterParams d)) ts (method m) ∧ MethodOpen m d := by
    cases ts with
    | nil => exact ⟨_, .nil _, d.line, Or.inl rfl⟩
    | cons t ts =>
        obtain ⟨hclause, harrow⟩ := hfirst t rfl
        exact method_clause_tokens hl hclause harrow fun x hx =>
          ⟨(hinner x hx).notComment, (hinner x hx).notBody⟩
  obtain ⟨m, hpasses, line, hm⟩ := hopen
  obtain ⟨line', hlast⟩ := method_stop hl hstop hm
  exact ⟨_, _, hpasses, hlast, deliver_method d line'⟩

theorem starts_of_clause {l : Language} (h : Clause l ts) :
    ∀ t ∈ ts.head?, MethodMachine.startsClause t.value = true ∧ t.value.isOperator "=>" = false := by
  intro t ht
  cases h with
  | none => simp at ht
  | throws hl hword hnames =>
      obtain rfl := Option.some.inj ht
      refine ⟨by simp [MethodMachine.startsClause, hword], ?_⟩
      exact Token.isOperator_eq_false (by rw [Token.kind_of_isKeyword hword]; decide) "=>"
  | base hl hcolon hword harguments =>
      obtain rfl := Option.some.inj ht
      exact ⟨by simp [MethodMachine.startsClause, hcolon], Token.isOperator_ne hcolon (by decide)⟩

/-- Behind the name, the parameters and what follows them. -/
theorem method_named_reads {d : MethodDraft} (hl : o.language.memberOrder = .typeFirst)
    (w : WrittenMethod o) :
    Reads o (method (.afterName d)) (w.params.block :: w.clause) w.stop
      (·.takeMethod (some (({ d with params := w.params.list.map (·.param) } : MethodDraft).method
        o [] []))) true := by
  obtain ⟨line, hparams⟩ := method_params (d := d) hl w.params.isBlock (w.params.ofParens hl)
  refine Reads.of_step hparams rfl ?_
  exact method_finish _ hl (starts_of_clause w.isClause) (fun t ht => w.isClause.inner ht) w.stops

/-- Behind a type that names the declaration, the parameters and what follows them. -/
theorem method_owner_reads {m : MethodMachine} {modifiers : List String} {r : TypeRef}
    (hl : o.language.memberOrder = .typeFirst) (w : WrittenMethod o)
    (hm : MethodTyped m modifiers r) (howner : namesOwner o r = true) :
    Reads o (method m) (w.params.block :: w.clause) w.stop
      (·.takeMethod (some {
        name := r.name, fullName := o.memberName r.name, returnType := r, typeParams := [],
        params := w.params.list.map (·.param), modifiers, annotations := [], comments := [] }))
      true := by
  obtain ⟨line, taken, hparams⟩ := method_parens hl hm w.params.isBlock
  rw [if_pos howner, w.params.ofParens hl] at hparams
  refine Reads.of_step hparams rfl ?_
  exact method_finish _ hl (starts_of_clause w.isClause) (fun t ht => w.isClause.inner ht) w.stops

theorem namesOwner_simple (name : String) :
    namesOwner o (.simple name) = (o.name? == some name) := by
  simp [namesOwner, TypeRef.simple, TypeRef.isGeneric, eq_comm, beq_eq_decide]

/-- A written method is read as it is written. -/
theorem method_written (hl : o.language.memberOrder = .typeFirst) (w : WrittenMethod o) :
    Reads o (method .idle) w.front w.stop (·.takeMethod (some w.method)) true := by
  obtain ⟨started, hmodifiers⟩ := method_modifiers w.modified false []
  have hparse := TypeRef.parse_word w.isName.word
  have hlast := Text.lastPart_word w.isName.word
  unfold WrittenMethod.front WrittenMethod.method
  rw [List.append_assoc]
  refine Reads.of_append hmodifiers rfl ?_
  cases hr : w.result? with
  | some r =>
      obtain ⟨m, htype, hm⟩ := method_written_type hl r started ([] ++ w.modifiers.map (·.text)) []
      obtain ⟨line, hname⟩ := method_name hl hm w.isName.identifier hparse
      refine Reads.of_append htype rfl ?_
      refine Reads.of_step hname rfl ?_
      rw [show Text.lastPart (TypeRef.simple w.name.text).name = w.name.text from hlast]
      exact method_named_reads hl w
  | none =>
      have hstarts : TypeMachine.starts o.language true w.name.value = true := by
        rw [TypeMachine.starts, show w.name.value.kind = _ from w.isName.identifier]
      have hname := method_type hl hstarts hparse started ([] ++ w.modifiers.map (·.text)) []
      refine Reads.of_step hname rfl ?_
      refine method_owner_reads hl w (Or.inl ⟨_, rfl⟩) ?_
      rw [namesOwner_simple, w.owned hr]
      exact beq_self_eq_true _

/-! ## Declarations that are no methods -/

/-- A field, up to its last token. -/
theorem settles_field {e : Extractor} (hl : o.language.memberOrder = .typeFirst)
    (f : WrittenField o.language) (he : e.rank ≤ 1) : Settles o e f.front 2 := by
  have hmodifiers := settles_modifiers hl (by decide) f.modified he (by decide)
  refine (hmodifiers.append fun e' he' => settles_type hl f.type he' (Nat.le_refl 1)).append ?_
  exact fun e' he' => settles_identifier hl f.isName.identifier he' (Nat.le_refl 2)

/-- At the last token of a field the machine becomes idle. -/
theorem method_settles_stop {m : MethodMachine} (hl : o.language.memberOrder = .typeFirst)
    (h : Settles o (method m) ts 2) (hstop : MethodMachine.isBody stop.value = true) :
    Reads o (method m) ts stop id false := by
  obtain ⟨last, hpasses, hrank, hreset⟩ := h
  obtain ⟨hkind, hat, hblock⟩ := leaves_of_isBody hstop
  cases last with
  | method m' =>
      have hleaves := method_calm_leaves hl hrank hkind hat (hblock '[' (by decide)) fun _ =>
        hblock '(' (by decide)
      exact ⟨method m', [], hpasses, hleaves, fun _ => rfl⟩
  | _ => cases hreset

/-- A declaration that is no method is passed over. -/
theorem method_quiet (hl : o.language.memberOrder = .typeFirst) {m : MethodMachine}
    (hm : m.rank ≤ 1) (w : Written o) (hw : w.method? = none) :
    Reads o (method m) w.front w.stop id false := by
  cases w with
  | method w => cases hw
  | nested n => exact settles_stop hl (settles_nested hl n hm) (Written.nested n).isBody_stop
  | field f =>
      exact method_settles_stop hl (settles_field hl f hm) (Written.field f : Written o).isBody_stop

/-! ## Behind annotations -/

/-- Behind a type, the name of a constructor is read as it should be, and the type as that of its
result. -/
theorem method_typed_constructor {m : MethodMachine} {r : TypeRef}
    (hl : o.language.memberOrder = .typeFirst) (hm : MethodTyped m [] r) (w : WrittenMethod o)
    (hmodifiers : w.modifiers = []) (hr : w.result? = none) :
    Reads o (method m) w.front w.stop
      (·.takeMethod (some { w.method with returnType := r })) true := by
  obtain ⟨line, hname⟩ :=
    method_name hl hm w.isName.identifier (TypeRef.parse_word w.isName.word)
  have hfront : w.front = w.name :: w.params.block :: w.clause := by
    rw [WrittenMethod.front, hmodifiers, hr]
    rfl
  rw [hfront]
  refine Reads.of_step hname rfl ?_
  rw [show Text.lastPart (TypeRef.simple w.name.text).name = w.name.text from
    Text.lastPart_word w.isName.word]
  simp only [WrittenMethod.method, hmodifiers, List.map_nil]
  exact method_named_reads hl w

/-- Behind a type, the type of a method is read as its name, so that only the name with the
parameters is left, as in a constructor. -/
theorem method_typed_method {m : MethodMachine} {r : TypeRef}
    (hl : o.language.memberOrder = .typeFirst) (hstyle : o.language.annotationStyle = .atSign)
    (hm : MethodTyped m [] r) (w : WrittenMethod o) {result : WrittenType o.language true}
    (hmodifiers : w.modifiers = []) (hr : w.result? = some result)
    (hkind : result.word.kind = .identifier) :
    Reads o (method m) w.front w.stop
      (·.takeMethod (if o.name? == some w.name.text then
        some { w.method with returnType := .simple w.name.text } else none))
      (o.name? == some w.name.text) := by
  have hmark : result.mark? = none := by
    by_contra hsome
    obtain ⟨q, hq⟩ := Option.ne_none_iff_exists'.1 hsome
    rw [(result.marked q hq).1] at hstyle
    exact absurd hstyle (by decide)
  have hfront : w.front = result.word :: w.name :: w.params.block :: w.clause := by
    rw [WrittenMethod.front, hmodifiers, hr, Option.elim_some, WrittenType.tokens, hmark]
    rfl
  obtain ⟨line, hword⟩ := method_name hl hm hkind result.parsed
  have hname := w.isName.identifier
  have hparse := TypeRef.parse_word w.isName.word
  have hretry {d : MethodDraft} := method_named_retries (o := o) (d := d) (t := w.name) hl
    (by rw [hname]; decide) (Token.isBlock_eq_false (by show w.name.kind ≠ _; rw [hname]; decide) '(')
  have htype := method_name_type hl hname
  rw [hparse] at htype
  rw [hfront]
  refine Reads.of_step hword rfl ?_
  refine Reads.of_step (hretry.trans htype) rfl ?_
  by_cases howner : namesOwner o (.simple w.name.text) = true
  · have howned : (o.name? == some w.name.text) = true := namesOwner_simple _ ▸ howner
    rw [howned, if_pos rfl]
    simp only [WrittenMethod.method, hmodifiers, List.map_nil]
    exact method_owner_reads hl w (Or.inl ⟨_, rfl⟩) howner
  · have howned : (o.name? == some w.name.text) = false := by
      rw [← namesOwner_simple]
      simpa using howner
    obtain ⟨line', taken, hparens⟩ := method_parens hl
      (Or.inl ⟨_, rfl⟩ : MethodTyped (.type { modifiers := [], line := w.name.span.last.line }
        (.found (.simple w.name.text))) [] _) w.params.isBlock
    rw [if_neg howner] at hparens
    have hparen := hparens.trans (method_paren hl w.params.isBlock)
    rw [howned, if_neg Bool.false_ne_true]
    refine Reads.of_step hparen rfl ?_
    exact settles_stop hl (settles_clause (e := method .idle) hl w.isClause rfl) w.stops

/-- A method that starts with an identifier has no modifiers. -/
theorem modifiers_of_identifier (w : WrittenMethod o)
    (h : (Written.method w).first.kind = .identifier) : w.modifiers = [] := by
  cases hq : w.modifiers with
  | nil => rfl
  | cons q qs =>
      have hkeyword := Language.kind_of_marks (w.modified q (by rw [hq]; simp))
      simp only [Written.first, hq, List.headD_cons] at h
      exact absurd (hkeyword.symm.trans h) (by decide)

/-- Behind a type, a declaration that starts with an identifier. -/
theorem method_behind_type {r : TypeRef} {line : Nat} (hl : o.language.memberOrder = .typeFirst)
    (hstyle : o.language.annotationStyle = .atSign) (w : Written o)
    (hidentifier : w.first.kind = .identifier) :
    Reads o (method (.type { modifiers := [], line } (.found r))) w.front w.stop
      (·.takeMethod (w.readBehindType? r)) (w.readBehindType? r).isSome := by
  have hm : MethodTyped (.type { modifiers := [], line } (.found r)) [] r := Or.inl ⟨line, rfl⟩
  cases w with
  | field f => exact method_quiet (m := .type _ (.found r)) hl (Nat.le_refl 1) _ rfl
  | nested n => exact method_quiet (m := .type _ (.found r)) hl (Nat.le_refl 1) _ rfl
  | method w =>
      have hmodifiers := modifiers_of_identifier w hidentifier
      rw [Written.readBehindType?]
      cases hr : w.result? with
      | none => exact method_typed_constructor hl hm w hmodifiers hr
      | some result =>
          simp only [Written.first, hmodifiers, hr, List.headD_nil] at hidentifier
          have hreads := method_typed_method hl hstyle hm w hmodifiers hr hidentifier
          by_cases howned : (o.name? == some w.name.text) = true
          · simpa [howned, Written.front, Written.stop] using hreads
          · simpa [howned, Written.front, Written.stop] using hreads

/-- A declaration behind nothing. -/
theorem method_reads_idle (hl : o.language.memberOrder = .typeFirst) (w : Written o) :
    Reads o (method .idle) w.front w.stop (·.takeMethod w.method?) w.method?.isSome := by
  cases hw : w.method? with
  | none => exact method_quiet (m := .idle) hl (Nat.zero_le 1) w hw
  | some f =>
      cases w with
      | method w =>
          cases hw
          exact method_written hl w
      | _ => cases hw

/-- The machine that reads methods reads a declaration as what it keeps of annotations tells. -/
theorem method_reads {x : Remnant} {m : MethodMachine} (hl : o.language.memberOrder = .typeFirst)
    (hx : x.Methods o.language m) (w : Written o) :
    Reads o (method m) w.front w.stop (·.takeMethod (w.readMethod? x))
      (w.readMethod? x).isSome := by
  obtain ⟨rest, hfront⟩ := w.exists_front
  have hword := w.word_first hl
  have hnotComment : w.first.kind ≠ .comment := by rcases hword with h | h <;> rw [h] <;> decide
  have hfresh := method_reads_idle hl w
  have hretry (h : respond o w.first (method m) = respond o w.first (method .idle))
      (hreset : (method m).reset = method .idle) :
      Reads o (method m) w.front w.stop (·.takeMethod w.method?) w.method?.isSome := by
    rw [hfront] at hfresh ⊢
    exact hfresh.congr_first h hreset
  cases x with
  | nothing =>
      obtain rfl := hx
      exact hfresh
  | arguments =>
      obtain ⟨hstyle, rfl⟩ := hx
      have hseparator : w.first.kind ≠ .separator := by
        rcases hword with h | h <;> rw [h] <;> decide
      have hblock : w.first.kind ≠ .block := by rcases hword with h | h <;> rw [h] <;> decide
      exact hretry (method_arguments hl hstyle hnotComment hseparator hblock) rfl
  | parameters r ps =>
      obtain ⟨hstyle, line, rfl⟩ := hx
      have harrow : w.first.value.isOperator "=>" = false := Token.isOperator_eq_false
        (by show w.first.kind ≠ _; rcases hword with h | h <;> rw [h] <;> decide) "=>"
      rw [Written.readMethod?]
      by_cases hclause : MethodMachine.startsClause w.first.value = true
      · rw [if_pos hclause]
        refine method_finish _ hl ?_ (w.inner_front hl) w.isBody_stop
        intro t ht
        rw [hfront] at ht
        obtain rfl := Option.some.inj ht
        exact ⟨hclause, harrow⟩
      · rw [if_neg hclause]
        rw [Bool.not_eq_true] at hclause
        have hbody := (w.inner_front hl w.first (by rw [hfront]; simp)).notBody
        exact hretry (method_params_retries hl hnotComment hclause hbody harrow) rfl
  | type r =>
      obtain ⟨hstyle, line, rfl⟩ := hx
      have hm : MethodTyped (.type { modifiers := [], line } (.found r)) [] r := Or.inl ⟨line, rfl⟩
      rw [Written.readMethod?]
      by_cases hidentifier : w.first.kind = .identifier
      · rw [if_pos (beq_iff_eq.2 hidentifier)]
        exact method_behind_type hl hstyle w hidentifier
      · rw [if_neg (by simpa using hidentifier)]
        have hop : ∀ op, w.first.value.isOperator op = false := Token.isOperator_eq_false
          (by show w.first.kind ≠ _; rcases hword with h | h <;> rw [h] <;> decide)
        exact hretry (method_typed_retries hl hm hnotComment hidentifier (hop "?") (hop "...")
          (isParen_of_word hword)) rfl

end Extractor

end Outline

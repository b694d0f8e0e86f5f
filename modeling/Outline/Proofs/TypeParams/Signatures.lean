import Outline.Proofs.TypeParams.Heads
import Outline.Proofs.TypeParams.Methods

/-!
# Type parameters where the name comes first

There a list of type parameters is read as part of the identifier that names the method, and
nowhere else: a bracket behind the name makes the machine give up.

* `MethodMachine.Finishing` — nothing but the end of a method is left to be read.
* `ListedSignature` — a method with type parameters in the identifier that names it.
* `ListedSignature.hasMethod` — it is among the members of the body with these type parameters.
* `Extractor.respond_angle_behind` — behind the name the machine gives up at a bracket.
-/

namespace Outline

/-! ## Types behind the parameters -/

namespace TypeMachine

variable {l : Language} {allowVoid : Bool} {t : Token} {m : TypeMachine}

/-- A comment is no part of a type. -/
theorem kind_of_taken (h : (m.accept l allowVoid t).taken = true) : t.kind ≠ .comment := by
  intro hkind
  have hop : ∀ op, t.isOperator op = false := Token.isOperator_eq_false (by rw [hkind]; decide)
  have hword : ∀ word, t.isKeyword word = false :=
    Token.isKeyword_eq_false (by rw [hkind]; decide)
  have hstarts : starts l allowVoid t = false := by rw [starts, hkind]
  cases m <;> simp [accept, Step.leave, hop, hword, hstarts] at h

theorem eq_complete (h : m.isComplete = true) : ∃ r, m = complete r := by
  cases m with
  | complete r => exact ⟨r, rfl⟩
  | _ => cases h

theorem eq_failed (h : m.isFailed = true) : m = failed := by
  cases m with
  | failed => rfl
  | _ => cases h

/-- Behind a type that is read, a token that is no operator does not belong to it. -/
theorem accept_found_of_kind {r : TypeRef} (h : t.kind ≠ .operator) :
    (found r).accept l allowVoid t = .leave (complete r) := by
  have hop := Token.isOperator_eq_false h
  simp [accept, hop]

end TypeMachine

namespace MethodMachine

variable {o : Owner} {t : TokenTree} {m : MethodMachine} {d : MethodDraft}

/-- The line of the end of the last one of some tokens, or `line` if there is none. -/
def lastLine (line : Nat) (ts : List TokenTree) : Nat :=
  ts.foldl (fun _ t => t.span.last.line) line

/-- Nothing but the end of the method `d` is left to be read. -/
inductive Finishing : MethodMachine → MethodDraft → Prop where
  /-- The parameters are read. -/
  | params (d : MethodDraft) : Finishing (afterParams d) d
  /-- A type behind them has ended. -/
  | result (d : MethodDraft) : Finishing (afterReturn d) d
  /-- A type behind them is read and marks may follow. -/
  | type (d : MethodDraft) (r : TypeRef) :
      Finishing (returnType d (.found r)) { d with returnType? := some r }

/-- A token that is no operator is read as the end of the method. -/
theorem Finishing.accept (hl : o.language.memberOrder = .nameFirst) (hm : Finishing m d)
    (ht : t.kind ≠ .operator) : acceptInOrder o m t = acceptTail d t.value := by
  rw [acceptInOrder_nameFirst hl]
  cases hm with
  | params d =>
      have hcolon : t.value.isOperator ":" = false := Token.isOperator_eq_false ht ":"
      rw [acceptNameFirst, hcolon, if_neg Bool.false_ne_true]
  | result d => rfl
  | type d r =>
      have hfound : (TypeMachine.found r).accept o.language true t.value =
          .leave (.complete r) := TypeMachine.accept_found_of_kind ht
      simp only [acceptNameFirst, acceptType, hfound]
      rfl

/-- At the end of the body the method has ended. -/
theorem Finishing.bodyEnd (hl : o.language.memberOrder = .nameFirst) (hm : Finishing m d) :
    m.bodyEnd o = complete d := by
  unfold MethodMachine.bodyEnd
  rw [hl]
  cases hm <;> rfl

/-- The tokens behind a method end it: a semicolon or a body, a token on a later line than the given
one that does not continue it, or the end of the body. -/
inductive EndsIn (line : Nat) : List TokenTree → Prop where
  /-- The end of the body. -/
  | bodyEnd : EndsIn line []
  /-- A semicolon or a body. -/
  | stop {t : TokenTree} {rest : List TokenTree} (hstop : isBody t.value = true) :
      EndsIn line (t :: rest)
  /-- A token on a later line. -/
  | later {t : TokenTree} {rest : List TokenTree} (hcomment : t.kind ≠ .comment)
      (hoperator : t.kind ≠ .operator) (hline : line < t.span.start.line) : EndsIn line (t :: rest)
  /-- A comment in front of the end. -/
  | comment {t : TokenTree} {rest : List TokenTree} (hcomment : t.kind = .comment)
      (hrest : EndsIn line rest) : EndsIn line (t :: rest)

/-- A type machine that takes a token without ending goes on. -/
theorem acceptType_within {l : Language} {machine : TypeMachine} {token : Token}
    {within : MethodDraft → TypeMachine → MethodMachine} {next : MethodDraft → MethodMachine}
    {accept : MethodDraft → Step MethodMachine}
    (htaken : (machine.accept l true token).taken = true)
    (hc : (machine.accept l true token).state.isComplete = false)
    (hf : (machine.accept l true token).state.isFailed = false) :
    acceptType l d machine token within next accept =
      ⟨within d (machine.accept l true token).state, true,
        (machine.accept l true token).malformed⟩ := by
  unfold acceptType
  generalize machine.accept l true token = s at htaken hc hf ⊢
  obtain ⟨state, taken, malformed⟩ := s
  obtain rfl : taken = true := htaken
  cases state with
  | complete r => cases hc
  | failed => cases hf
  | _ => rfl

/-- One that ends with the token is done. -/
theorem acceptType_ends {l : Language} {machine : TypeMachine} {token : Token} {r : TypeRef}
    {within : MethodDraft → TypeMachine → MethodMachine} {next : MethodDraft → MethodMachine}
    {accept : MethodDraft → Step MethodMachine}
    (htaken : (machine.accept l true token).taken = true)
    (hstate : (machine.accept l true token).state = .complete r) :
    acceptType l d machine token within next accept =
      ⟨next { d with returnType? := some r }, true, (machine.accept l true token).malformed⟩ := by
  unfold acceptType
  simp only [hstate, htaken, if_true]

end MethodMachine

namespace Extractor

open MethodMachine (Finishing EndsIn acceptInOrder acceptNameFirst lastLine)

variable {o : Owner} {t : TokenTree} {m : MethodMachine} {d : MethodDraft}

/-! ## The end of a method -/

/-- A token that ends a method delivers it. -/
theorem Finishing.delivers (hl : o.language.memberOrder = .nameFirst) (hm : Finishing m d)
    (ht : t.kind ≠ .comment) (hop : t.kind ≠ .operator)
    (hend : MethodMachine.isBody t.value = true ∨ d.line < t.span.start.line) :
    Delivers o (respond o t (method m)).ended (d.method o [] []) := by
  have haccept := hm.accept hl hop
  by_cases hbody : MethodMachine.isBody t.value = true
  · rw [MethodMachine.acceptTail, if_pos hbody] at haccept
    rw [respond_ends ht haccept]
    exact delivers_complete (d := { d with line := t.span.last.line }) o []
  · have hline : d.endsBefore t.value = true :=
      Bool.and_eq_true_iff.2 ⟨decide_eq_true (hend.resolve_left hbody), bne_iff_ne.2 hop⟩
    rw [MethodMachine.acceptTail, if_neg hbody, if_pos hline] at haccept
    have hs : (method m).accept o t = ⟨method (.complete d), false, []⟩ := by
      rw [accept, MethodMachine.accept_of_left ht haccept]
      rfl
    rw [respond_of_left_complete hs rfl rfl rfl rfl (restart_method (p := 0) ht).1]
    exact delivers_complete o _

/-- A method that is read up to its end is among the members. -/
theorem hasMethod_of_finishing (hl : o.language.memberOrder = .nameFirst) {es : List Extractor}
    (hes : method .idle ∈ es) (hm : Finishing m d) {front rest : List TokenTree}
    (hrest : EndsIn d.line rest) (hfront : after o (method .idle) front = method m) :
    (run o es (front ++ rest)).members.HasMethod (d.method o [] []) := by
  induction hrest generalizing front with
  | bodyEnd =>
      rw [List.append_nil]
      refine hasMethod_close hes ?_
      rw [hfront, bodyEnd, hm.bodyEnd hl]
  | @stop t rest hstop =>
      have hkind := kind_of_isBody hstop
      have ht : t.kind ≠ .comment := by rcases hkind with h | h <;> rw [h] <;> decide
      have hop : t.kind ≠ .operator := by rcases hkind with h | h <;> rw [h] <;> decide
      refine hasMethod_run hes ?_ rest
      rw [hfront]
      exact Finishing.delivers hl hm ht hop (.inl hstop)
  | @later t rest hcomment hoperator hline =>
      refine hasMethod_run hes ?_ rest
      rw [hfront]
      exact Finishing.delivers hl hm hcomment hoperator (.inr hline)
  | @comment t rest hcomment _ ih =>
      have hleaves : respond o t (method m) = ⟨method m, [], false⟩ :=
        comment_leaves hcomment (.inr (.inl ⟨m, rfl⟩)) (by cases hm <;> rfl) (by cases hm <;> rfl)
      have hnext : after o (method .idle) (front ++ [t]) = method m := by
        rw [after_concat, hfront, hleaves]
      have hmember := ih hnext
      rwa [List.append_assoc, List.singleton_append] at hmember

/-- A type behind the parameters is read to its end. -/
theorem returnType_reads (hl : o.language.memberOrder = .nameFirst) {tm tm' : TypeMachine}
    {ts : List TokenTree} {malformed : List MalformedType} {r : TypeRef} (d : MethodDraft)
    (h : TypeMachine.readFrom o.language true tm ts = (tm', [], malformed))
    (hfinish : tm'.finish = .complete r) (htm : tm.isComplete = false) :
    ∃ m, Passes o (method (.returnType d tm)) ts (method m) ∧
      Finishing m { d with returnType? := some r, line := lastLine d.line ts } := by
  induction ts generalizing tm malformed d with
  | nil =>
      obtain ⟨rfl, -⟩ := Prod.mk.inj h
      cases tm with
      | found r' =>
          obtain rfl := TypeMachine.complete.inj hfinish
          exact ⟨_, .nil _, .type d r'⟩
      | complete r' => cases htm
      | _ => cases hfinish
  | cons t ts ih =>
      rw [TypeMachine.readFrom] at h
      cases htaken : (tm.accept o.language true t.value).taken with
      | false => simp [htaken] at h
      | true =>
          have ht : t.kind ≠ .comment := TypeMachine.kind_of_taken htaken
          have hstep := MethodMachine.acceptInOrder_nameFirst hl (.returnType d tm) t
          rw [acceptNameFirst] at hstep
          by_cases hc : (tm.accept o.language true t.value).state.isComplete = true
          · obtain ⟨r', hstate⟩ := TypeMachine.eq_complete hc
            simp only [htaken, hstate, Bool.not_true, Bool.false_eq_true, if_false,
              TypeMachine.isComplete, Bool.true_or, if_true, Prod.mk.injEq] at h
            obtain ⟨rfl, rfl, -⟩ := h
            obtain rfl := TypeMachine.complete.inj hfinish
            rw [MethodMachine.acceptType_ends htaken hstate] at hstep
            exact ⟨_, .one (respond_takes ht hstep rfl rfl), .result _⟩
          · rw [Bool.not_eq_true] at hc
            cases hf : (tm.accept o.language true t.value).state.isFailed with
            | true =>
                simp only [htaken, hc, hf, Bool.not_true, Bool.false_eq_true, if_false,
                  Bool.or_true, if_true, Prod.mk.injEq] at h
                rw [TypeMachine.eq_failed hf] at h
                obtain ⟨rfl, -⟩ := h
                cases hfinish
            | false =>
                simp only [htaken, hc, hf, Bool.not_true, Bool.false_eq_true, if_false,
                  Bool.or_false, Prod.mk.injEq] at h
                rw [MethodMachine.acceptType_within htaken hc hf] at hstep
                obtain ⟨m, hrest, hm⟩ := ih { d with line := t.span.last.line }
                  (Prod.ext h.1 (Prod.ext h.2.1 rfl)) hc
                exact ⟨m, .cons (respond_takes ht hstep rfl rfl) hrest, hm⟩

/-! ## The name -/

/-- An identifier names the method and may carry type parameters. -/
theorem signature_name (hl : o.language.memberOrder = .nameFirst) (ht : t.kind = .identifier)
    {r : TypeRef} (hparse : TypeRef.parse t.text = .ok r) (started : Bool)
    (modifiers : List String) :
    respond o t (method (.head started none modifiers [])) =
      ⟨method (.afterName {
        modifiers, typeParams := r.params, name := Text.lastPart r.name,
        line := t.span.last.line }), [], true⟩ := by
  have hskip : AnnotationSkip.step o.language none t.value = (none, false) :=
    FieldMachine.step_word (.inr ht)
  have hmark : o.language.marks .methodModifier t.value = false :=
    Language.marks_eq_false (by rw [ht]; decide)
  have haccept : acceptInOrder o (.head started none modifiers []) t =
      .take (.afterName { modifiers, typeParams := r.params, name := Text.lastPart r.name }) := by
    rw [MethodMachine.acceptInOrder_nameFirst hl, acceptNameFirst, hskip]
    simp [hmark, ht, MethodMachine.acceptName, hparse]
  exact respond_takes (by rw [ht]; decide) haccept rfl rfl

/-- Marks behind the name are passed over. -/
theorem signature_marks (hl : o.language.memberOrder = .nameFirst) {ts : List TokenTree}
    (hts : ∀ t ∈ ts, t.value.isOperator "?" = true) (d : MethodDraft) :
    Passes o (method (.afterName d)) ts
      (method (.afterName { d with line := lastLine d.line ts })) := by
  induction ts generalizing d with
  | nil => exact .nil _
  | cons t ts ih =>
      have hmark := hts t List.mem_cons_self
      have ht : t.kind ≠ .comment := by
        rw [show t.kind = _ from Token.kind_of_isOperator hmark]
        decide
      have haccept : acceptInOrder o (.afterName d) t = .take (.afterName d) := by
        rw [MethodMachine.acceptInOrder_nameFirst hl, acceptNameFirst, if_pos hmark]
      exact .cons (respond_takes ht haccept rfl rfl)
        (ih (fun u hu => hts u (List.mem_cons_of_mem t hu)) { d with line := t.span.last.line })

/-- The parameters. -/
theorem signature_params (hl : o.language.memberOrder = .nameFirst)
    (ht : t.value.isBlock '(' = true) {ps : List (Parameter TypeRef)}
    (hps : (Parameter.ofParens o.language t).1 = some ps) (d : MethodDraft) :
    respond o t (method (.afterName d)) =
      ⟨method (.afterParams { d with params := ps, line := t.span.last.line }), [], true⟩ := by
  have hkind : t.kind = .block := Token.kind_of_isBlock ht
  have hmark : t.value.isOperator "?" = false :=
    Token.isOperator_eq_false (by show t.kind ≠ _; rw [hkind]; decide) "?"
  have haccept : acceptInOrder o (.afterName d) t =
      ⟨.afterParams { d with params := ps }, true, (Parameter.ofParens o.language t).2⟩ := by
    rw [MethodMachine.acceptInOrder_nameFirst hl, acceptNameFirst, hmark,
      if_neg Bool.false_ne_true, if_pos ht, MethodMachine.acceptParams,
      show Parameter.ofParens o.language t = (some ps, (Parameter.ofParens o.language t).2) from
        Prod.ext hps rfl]
  exact respond_takes (by rw [hkind]; decide) haccept rfl rfl

/-- The colon in front of the type. -/
theorem signature_colon (hl : o.language.memberOrder = .nameFirst)
    (ht : t.value.isOperator ":" = true) (d : MethodDraft) :
    respond o t (method (.afterParams d)) =
      ⟨method (.returnType { d with line := t.span.last.line } .idle), [], true⟩ := by
  have hkind : t.kind = .operator := Token.kind_of_isOperator ht
  have haccept : acceptInOrder o (.afterParams d) t = .take (.returnType d .idle) := by
    rw [MethodMachine.acceptInOrder_nameFirst hl, acceptNameFirst, if_pos ht]
  exact respond_takes (by rw [hkind]; decide) haccept rfl rfl

/-- Behind the name, a bracket makes the machine give up. -/
theorem respond_angle_behind (hl : o.language.memberOrder = .nameFirst)
    (ht : t.value.isOperator "<" = true) (d : MethodDraft) :
    respond o t (method (.afterName d)) = ⟨method .idle, [], false⟩ := by
  have hkind : t.kind = .operator := Token.kind_of_isOperator ht
  have hcomment : t.kind ≠ .comment := by rw [hkind]; decide
  have hmark : t.value.isOperator "?" = false := Token.isOperator_ne ht (by decide)
  have hparen : t.value.isBlock '(' = false :=
    Token.isBlock_eq_false (by show t.kind ≠ _; rw [hkind]; decide) '('
  have hgives : acceptInOrder o (.afterName d) t = .leave .failed := by
    rw [MethodMachine.acceptInOrder_nameFirst hl, acceptNameFirst, hmark,
      if_neg Bool.false_ne_true, hparen, if_neg Bool.false_ne_true]
  have hskip : AnnotationSkip.step o.language none t.value = (none, false) :=
    FieldMachine.step_plain (by show t.kind ≠ _; rw [hkind]; decide)
      (by show t.kind ≠ _; rw [hkind]; decide)
  have hmodifier : o.language.marks .methodModifier t.value = false :=
    Language.marks_eq_false (by show t.kind ≠ _; rw [hkind]; decide)
  have hidle : acceptInOrder o .idle t = .leave .idle := by
    rw [MethodMachine.acceptInOrder_nameFirst hl, MethodMachine.idle, acceptNameFirst, hskip]
    simp [hmodifier, hkind, MethodMachine.leaveHead]
  rw [respond_retries hcomment hgives rfl, respond_leaves hcomment hidle rfl rfl]

end Extractor

/-! ## Written methods -/

open Extractor (method after Fresh Passes respond)
open MethodMachine (Finishing EndsIn lastLine)

/-- The type behind the parameters of a method. -/
structure WrittenResult (l : Language) where
  /-- The colon in front of it. -/
  colon : TokenTree
  /-- The tokens. -/
  tokens : List TokenTree
  /-- The type. -/
  ref : TypeRef
  /-- The colon is one. -/
  isColon : colon.value.isOperator ":" = true
  /-- The tokens are read as the type. -/
  read : ∃ m malformed, TypeMachine.readFrom l true .idle tokens = (m, [], malformed) ∧
    m.finish = .complete ref

/-- A method whose name comes first, with a list of type parameters that is part of the identifier
that names it. -/
structure ListedSignature (d : Dialect) (o : Owner) where
  /-- The modifiers. -/
  modifiers : List TokenTree
  /-- The name with the list. -/
  token : TokenTree
  /-- The name. -/
  name : String
  /-- The names of the type parameters. -/
  params : List String
  /-- The marks behind the name. -/
  optional : List TokenTree
  /-- The block with the parameters. -/
  parens : TokenTree
  /-- The parameters. -/
  list : List (Parameter TypeRef)
  /-- The type of its result, if it is written. -/
  result? : Option (WrittenResult o.language)
  /-- The modifiers are modifiers of methods. -/
  modified : ∀ m ∈ modifiers, o.language.marks .methodModifier m.value = true
  /-- The name is an identifier. -/
  isIdentifier : token.kind = .identifier
  /-- The identifier spells the name and the list. -/
  spelled : d.identifiers.Spells d.maxDepth false token.text.toList
    { name, params := params.map .simple }
  /-- It has no mark of a placeholder. -/
  unmarked : '#' ∉ token.text.toList
  /-- The marks say that the method may be missing. -/
  isOptional : ∀ m ∈ optional, m.value.isOperator "?" = true
  /-- The parameters are in parentheses. -/
  isParens : parens.value.isBlock '(' = true
  /-- The parameters are read. -/
  read : (Parameter.ofParens o.language parens).1 = some list

namespace ListedSignature

variable {d : Dialect} {o : Owner}

/-- The tokens behind the name. -/
def behind (w : ListedSignature d o) : List TokenTree :=
  w.optional ++ w.parens :: (w.result?.elim [] fun r => r.colon :: r.tokens)

/-- The tokens. -/
def tokens (w : ListedSignature d o) : List TokenTree := w.modifiers ++ w.token :: w.behind

/-- The first token. -/
def first (w : ListedSignature d o) : TokenTree := w.modifiers.headD w.token

/-- What is known of the method behind its parameters. -/
def named (w : ListedSignature d o) : MethodDraft where
  modifiers := w.modifiers.map (·.text)
  typeParams := w.params.map .simple
  name := Text.lastPart w.name
  params := w.list
  line := w.parens.span.last.line

/-- What is known of the method behind its last token. -/
def draft (w : ListedSignature d o) : MethodDraft :=
  { w.named with returnType? := w.result?.map (·.ref), line := lastLine 0 w.tokens }

/-- The method, without annotations and comments. -/
def method (w : ListedSignature d o) : Method TypeRef := w.draft.method o [] []

theorem exists_tokens (w : ListedSignature d o) : ∃ rest, w.tokens = w.first :: rest := by
  rw [tokens, first]
  cases w.modifiers with
  | nil => exact ⟨_, rfl⟩
  | cons t ts => exact ⟨_, rfl⟩

/-- The method is read up to its parameters. -/
theorem reads_named (hl : o.language.memberOrder = .nameFirst) (w : ListedSignature d o) :
    Passes o (.method .idle) (w.modifiers ++ w.token :: (w.optional ++ [w.parens]))
      (.method (.afterParams w.named)) := by
  have hparse := IdentifierStyle.parse_of_spells d.tame_identifiers w.spelled fun _ => w.unmarked
  rw [String.ofList_toList] at hparse
  obtain ⟨started, hmodifiers⟩ := Extractor.method_modifiers w.modified false []
  have hname := Extractor.signature_name hl w.isIdentifier hparse started
    (w.modifiers.map (·.text))
  have hmarks := Extractor.signature_marks hl w.isOptional
    { w.named with params := [], line := w.token.span.last.line }
  have hparams := Extractor.signature_params hl w.isParens w.read
    { w.named with params := [], line := lastLine w.token.span.last.line w.optional }
  exact hmodifiers.append (.cons hname (hmarks.append (.one hparams)))

/-- The method is read up to its end. -/
theorem reads (hl : o.language.memberOrder = .nameFirst) (w : ListedSignature d o) :
    ∃ m, Passes o (.method .idle) w.tokens (.method m) ∧ Finishing m w.draft := by
  have hnamed := w.reads_named hl
  have hline : lastLine 0 w.tokens =
      lastLine w.parens.span.last.line (w.result?.elim [] fun r => r.colon :: r.tokens) := by
    simp [tokens, behind, lastLine]
  have htokens : w.tokens = w.modifiers ++ w.token :: (w.optional ++ [w.parens]) ++
      (w.result?.elim [] fun r => r.colon :: r.tokens) := by
    simp [tokens, behind]
  rw [htokens, draft, hline]
  cases w.result? with
  | none =>
      refine ⟨.afterParams w.named, ?_, .params w.named⟩
      rw [Option.elim_none, List.append_nil]
      exact hnamed
  | some r =>
      obtain ⟨tm, malformed, hread, hfinish⟩ := r.read
      have hcolon := Extractor.signature_colon hl r.isColon w.named
      obtain ⟨m, htype, hm⟩ := Extractor.returnType_reads hl
        { w.named with line := r.colon.span.last.line } hread hfinish rfl
      exact ⟨m, hnamed.append (.cons hcolon htype), hm⟩

/-- The method is among the members if its first token is read as at the start of a body and the
tokens behind it end it. -/
theorem hasMethod (hl : o.language.memberOrder = .nameFirst) (w : ListedSignature d o)
    {es : List Extractor} (hes : .method .idle ∈ es) {front rest : List TokenTree}
    (hfresh : Fresh o front w.first) (hrest : EndsIn w.draft.line rest) :
    (Extractor.run o es (front ++ w.tokens ++ rest)).members.HasMethod w.method := by
  obtain ⟨m, hreads, hm⟩ := w.reads hl
  obtain ⟨ts, htokens⟩ := w.exists_tokens
  obtain ⟨e, hbefore⟩ := Extractor.method_after_idle o front
  rw [Fresh, hbefore] at hfresh
  refine Extractor.hasMethod_of_finishing hl hes hm hrest ?_
  rw [htokens] at hreads ⊢
  rw [Extractor.after_append, hbefore]
  exact Extractor.after_of_feeds (Extractor.Passes.congr_first hfresh hreads)

end ListedSignature

end Outline

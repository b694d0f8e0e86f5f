import Outline.Proofs.Written.Constants
import Outline.Proofs.Written.MethodBodies

/-!
# Constants as the machines that read fields and methods read them

In Java the body of an enumeration is also read by the machines that read fields and methods.  The
name of a constant starts a type for them, which they give up at the token behind it.  Where they
have read the name of an annotation as a type instead, or its arguments as parameters, they may end
a member at the end of the constant, which takes its annotations and comments.

* `Extractor.field_settles_constant`, `Extractor.method_settles_constant` — a constant that is read
  ends no member.
* `Extractor.rivals_take` — any other constant does, in front of a semicolon.
-/

namespace Outline

namespace Extractor

variable {o : Owner} {t : TokenTree} {e : Extractor} {ts : List TokenTree}
  {arguments? body? : Option TokenTree} {c : WrittenConstant o}

/-! ## Up to the name -/

/-- Unless the name of an annotation has been read as a type, the machine that reads fields reads
the name of the constant as one. -/
theorem field_named (hl : o.language.memberOrder = .typeFirst) (c : WrittenConstant o)
    (hx : ∀ r, c.remnant ≠ .type r) : Settles o (field .idle) c.named 1 := by
  obtain ⟨f, hleads, hf⟩ := field_leads (x := .nothing) (f := .idle) hl rfl c.leads
  obtain ⟨last, hlast, hrank, hreset⟩ :=
    settles_identifier (e := field .idle) hl c.isName.identifier (Nat.zero_le 0) (by decide)
  refine ⟨last, hleads.append ?_, hrank, hreset⟩
  change c.remnant.Fields o.language f at hf
  cases hremnant : c.remnant with
  | nothing =>
      rw [hremnant] at hf
      exact hf ▸ hlast
  | arguments =>
      rw [hremnant] at hf
      obtain ⟨hstyle, rfl⟩ := hf
      exact hlast.congr_first (field_arguments hl hstyle (Or.inr c.isName.identifier))
  | type r => exact absurd hremnant (hx r)
  | parameters r ps =>
      rw [hremnant] at hf
      exact hf.2 ▸ hlast

/-- Otherwise it reads it as the name of a field. -/
theorem field_named_typed (hl : o.language.memberOrder = .typeFirst) {r : TypeRef}
    (hx : c.remnant = .type r) : ∃ d, Passes o (field .idle) c.named (field (.afterName d)) := by
  obtain ⟨f, hleads, hf⟩ := field_leads (x := .nothing) (f := .idle) hl rfl c.leads
  change c.remnant.Fields o.language f at hf
  rw [hx] at hf
  obtain ⟨-, line, rfl⟩ := hf
  obtain ⟨line', hname⟩ := field_name hl (Or.inl ⟨line, rfl⟩ : FieldTyped _ [] r)
    c.isName.identifier (FieldMachine.isPlain_word c.isName.word)
  exact ⟨_, hleads.append (.one hname)⟩

/-- A name starts a clause only if it is that word. -/
theorem startsClause_name (h : t.kind = .identifier) :
    MethodMachine.startsClause t.value = (t.text == "where") := by
  have hkeyword : ∀ word, t.value.isKeyword word = false :=
    Token.isKeyword_eq_false (by show t.kind ≠ _; rw [h]; decide)
  have hcolon : t.value.isOperator ":" = false :=
    Token.isOperator_eq_false (by show t.kind ≠ _; rw [h]; decide) ":"
  simp [MethodMachine.startsClause, hkeyword, hcolon, show t.value.kind = _ from h]

/-- Unless the name of an annotation has been read as a type, or its arguments as parameters behind
which the name may start a clause, the machine that reads methods reads the name of the constant as
a type. -/
theorem method_named (hl : o.language.memberOrder = .typeFirst) (c : WrittenConstant o)
    (hx : ∀ r, c.remnant ≠ .type r)
    (hwhere : ∀ r ps, c.remnant = .parameters r ps → c.name.text ≠ "where") :
    ∃ m, Passes o (method .idle) c.named (method m) ∧
      MethodTyped m [] (.simple c.name.text) := by
  obtain ⟨m, hleads, hm⟩ := method_leads (x := .nothing) (m := .idle) hl rfl c.leads
  have hkind := c.isName.identifier
  have hnotComment : c.name.kind ≠ .comment := by rw [hkind]; decide
  have hname := method_name_type hl hkind
  rw [TypeRef.parse_word c.isName.word] at hname
  refine ⟨_, hleads.append (.one (Eq.trans ?_ hname)), Or.inl ⟨_, rfl⟩⟩
  change c.remnant.Methods o.language m at hm
  cases hremnant : c.remnant with
  | nothing =>
      rw [hremnant] at hm
      obtain rfl := hm
      rfl
  | arguments =>
      rw [hremnant] at hm
      obtain ⟨hstyle, rfl⟩ := hm
      exact method_arguments hl hstyle hnotComment (by rw [hkind]; decide) (by rw [hkind]; decide)
  | type r => exact absurd hremnant (hx r)
  | parameters r ps =>
      have hclause : MethodMachine.startsClause c.name.value = false := by
        rw [startsClause_name hkind]
        exact beq_eq_false_iff_ne.2 (hwhere r ps hremnant)
      rw [hremnant] at hm
      obtain ⟨-, line, rfl⟩ := hm
      exact method_params_retries hl hnotComment hclause (IsInner.word (Or.inr hkind)).notBody
        (Token.isOperator_eq_false (by show c.name.kind ≠ _; rw [hkind]; decide) "=>")

/-- Behind a type, it reads it as the name of a method. -/
theorem method_named_typed (hl : o.language.memberOrder = .typeFirst) {r : TypeRef}
    (hx : c.remnant = .type r) : ∃ d, Passes o (method .idle) c.named (method (.afterName d)) := by
  obtain ⟨m, hleads, hm⟩ := method_leads (x := .nothing) (m := .idle) hl rfl c.leads
  change c.remnant.Methods o.language m at hm
  rw [hx] at hm
  obtain ⟨-, line, rfl⟩ := hm
  obtain ⟨line', hname⟩ := method_name hl (Or.inl ⟨line, rfl⟩ : MethodTyped _ [] r)
    c.isName.identifier (TypeRef.parse_word c.isName.word)
  exact ⟨_, hleads.append (.one hname)⟩

/-! ## Arguments and bodies -/

/-- A body takes a machine that has read no name back. -/
theorem settles_body (hl : o.language.memberOrder = .typeFirst) (he : e.rank ≤ 1)
    (hbody : ∀ b ∈ body?, b.value.isBlock '\x7b' = true) : Settles o e body?.toList 1 := by
  cases body? with
  | none => exact .nil he
  | some b =>
      have hblock := hbody b rfl
      have hkind := Token.kind_of_isBlock hblock
      have hleaves := calm_leaves hl he (Or.inr hkind)
        (Token.isSeparator_eq_false (by rw [hkind]; decide) "@")
        (Token.isBlock_ne hblock (by decide)) (Token.isBlock_ne hblock (by decide))
      refine ⟨e.reset, .one hleaves, ?_, ?_⟩
      · cases e <;> first | exact Nat.zero_le 1 | exact absurd he (by decide : ¬ 3 ≤ 1)
      · cases e <;> rfl

/-- So do arguments take the machine that reads fields. -/
theorem field_settles_arguments {m : FieldMachine} (hl : o.language.memberOrder = .typeFirst)
    (hm : m.rank ≤ 1) (harguments : ∀ b ∈ arguments?, b.value.isBlock '(' = true) :
    Settles o (field m) arguments?.toList 1 := by
  cases arguments? with
  | none => exact .nil hm
  | some b =>
      exact (field_settles_params hl (harguments b rfl) (Nat.le_succ_of_le hm)).mono (Nat.zero_le 1)

/-- And the one that reads methods, unless it has read the name of the enumeration. -/
theorem method_settles_arguments {m : MethodMachine} {r : TypeRef}
    (hl : o.language.memberOrder = .typeFirst) (hm : MethodTyped m [] r)
    (howner : namesOwner o r = false)
    (harguments : ∀ b ∈ arguments?, b.value.isBlock '(' = true) :
    Settles o (method m) arguments?.toList 1 := by
  cases arguments? with
  | none =>
      refine .nil ?_
      rcases hm with ⟨line, rfl⟩ | ⟨line, rfl⟩ <;> exact Nat.le_refl 1
  | some b =>
      have hblock := harguments b rfl
      obtain ⟨line, taken, hparens⟩ := method_parens hl hm hblock
      rw [howner, if_neg Bool.false_ne_true, method_paren hl hblock] at hparens
      exact ⟨method .idle, .one hparens, Nat.zero_le 1, rfl⟩

/-! ## Behind a name of a field or a method -/

/-- Where there are no properties, a body behind the name of a field takes the machine back. -/
theorem field_body {d : FieldDraft} (hl : o.language.memberOrder = .typeFirst)
    (hproperties : o.language.hasPropertyBlocks = false) (h : t.value.isBlock '\x7b' = true) :
    respond o t (field (.afterName d)) = ⟨field .idle, [], false⟩ := by
  have hkind := Token.kind_of_isBlock h
  have hsep : ∀ sep, t.value.isSeparator sep = false :=
    Token.isSeparator_eq_false (by rw [hkind]; decide)
  have hop : ∀ op, t.value.isOperator op = false :=
    Token.isOperator_eq_false (by rw [hkind]; decide)
  have haccept : FieldMachine.acceptTypeFirst o.language (.afterName d) t.value =
      .leave .failed := by
    simp [FieldMachine.acceptTypeFirst, FieldMachine.isEnd, hsep, hop, hproperties]
  exact (field_retries hl (kind_ne_of_isBlock h) haccept rfl).trans
    (field_calm_leaves hl (Nat.zero_le 1) (Or.inr hkind) (hsep "@")
      (Token.isBlock_ne h (by decide)))

/-- Arguments that are no parameters take the machine that reads methods back. -/
theorem method_params_lost {d : MethodDraft} (hl : o.language.memberOrder = .typeFirst)
    (h : t.value.isBlock '(' = true) (hps : (Parameter.ofParens o.language t).1 = none) :
    respond o t (method (.afterName d)) = ⟨method .idle, [], true⟩ := by
  have haccept : MethodMachine.acceptTypeFirst o (.afterName d) t =
      ⟨.failed, true, (Parameter.ofParens o.language t).2⟩ := by
    simp only [MethodMachine.acceptTypeFirst, h, if_true, MethodMachine.acceptParams]
    rw [show Parameter.ofParens o.language t = (none, (Parameter.ofParens o.language t).2) from
      Prod.ext hps rfl]
  exact method_dies hl (kind_ne_of_isBlock h) haccept

/-! ## Constants -/

theorem typeFirst_of_java {l : Language} (hl : l = .java) : l.memberOrder = .typeFirst := by
  rw [hl]
  rfl

theorem not_namesOwner (hjava : o.language = .java) (c : WrittenConstant o) :
    namesOwner o (.simple c.name.text) = false := by
  rw [namesOwner_simple]
  exact beq_eq_false_iff_ne.2 (c.notOwner hjava)

/-- A constant that is read ends no field. -/
theorem field_settles_constant (hjava : o.language = .java) (hread : c.IsRead) :
    Settles o (field .idle) c.tokens 1 := by
  have hl := typeFirst_of_java hjava
  unfold WrittenConstant.tokens
  cases htail : c.tail with
  | value assigned? style isEquals isValue => exact absurd hjava style
  | parts arguments? body? style isArguments isBody =>
      have htyped := htail ▸ hread.behindType
      simp only [ConstantTail.tokens]
      by_cases hx : ∃ r, c.remnant = .type r
      · obtain ⟨r, hx⟩ := hx
        obtain ⟨d, hnamed⟩ := field_named_typed hl hx
        have hsettles : Settles o (field .idle) c.named 2 := ⟨_, hnamed, Nat.le_refl 2, rfl⟩
        cases arguments? with
        | some block =>
            refine hsettles.append_field fun m hm => ?_
            have hblock := field_settles_params hl (isArguments block rfl) hm
            exact (hblock.mono (Nat.zero_le 1)).append fun e he => settles_body hl he isBody
        | none =>
            obtain ⟨b, rfl⟩ := Option.isSome_iff_exists.1 (htyped r hx)
            have hbody := field_body (d := d) hl (by rw [hjava]; rfl) (isBody b rfl)
            exact ⟨_, hnamed.append (.one hbody), Nat.zero_le 1, rfl⟩
      · refine (field_named hl c fun r h => hx ⟨r, h⟩).append_field fun m hm => ?_
        exact (field_settles_arguments hl hm isArguments).append fun e he =>
          settles_body hl he isBody

/-- Nor a method. -/
theorem method_settles_constant (hjava : o.language = .java) (hread : c.IsRead) :
    Settles o (method .idle) c.tokens 1 := by
  have hl := typeFirst_of_java hjava
  unfold WrittenConstant.tokens
  cases htail : c.tail with
  | value assigned? style isEquals isValue => exact absurd hjava style
  | parts arguments? body? style isArguments isBody =>
      have htyped := htail ▸ hread.behindType
      have hwhere := hread.behindParameters hjava
      simp only [ConstantTail.tokens]
      by_cases hx : ∃ r, c.remnant = .type r
      · obtain ⟨r, hx⟩ := hx
        obtain ⟨d, hnamed⟩ := method_named_typed hl hx
        cases arguments? with
        | some block =>
            have hlost := method_params_lost (d := d) hl (isArguments block rfl) (htyped r hx)
            have hfront : Settles o (method .idle) (c.named ++ [block]) 1 :=
              ⟨_, hnamed.append (.one hlost), Nat.zero_le 1, rfl⟩
            rw [← List.append_assoc]
            exact hfront.append fun e he => settles_body hl he isBody
        | none =>
            obtain ⟨b, rfl⟩ := Option.isSome_iff_exists.1 (htyped r hx)
            have hblock := isBody b rfl
            have hkind := Token.kind_of_isBlock hblock
            have hbody := method_calm_leaves (m := .afterName d) hl (Nat.le_refl 2) (Or.inr hkind)
              (Token.isSeparator_eq_false (by rw [hkind]; decide) "@")
              (Token.isBlock_ne hblock (by decide)) fun _ => Token.isBlock_ne hblock (by decide)
            exact ⟨_, hnamed.append (.one hbody), Nat.zero_le 1, rfl⟩
      · obtain ⟨m, hnamed, hm⟩ := method_named hl c (fun r h => hx ⟨r, h⟩) hwhere
        obtain ⟨e, harguments, he, hreset⟩ :=
          method_settles_arguments hl hm (not_namesOwner hjava c) isArguments
        have hfront : Settles o (method .idle) (c.named ++ arguments?.toList) 1 :=
          ⟨e, hnamed.append harguments, he, hreset⟩
        rw [← List.append_assoc]
        exact hfront.append fun e he => settles_body hl he isBody

theorem deliver_field (d : FieldDraft) (h : Harvest) :
    [field (.complete d)].foldl (deliver o) h = h.takeField (some (d.field o [] [])) := rfl

/-- At the token `stop` behind `ts` a field or a method ends. -/
def TakenAt (o : Owner) (ts : List TokenTree) (stop : TokenTree) : Prop :=
  ∃ field? method?, Reads o (field .idle) ts stop (·.takeField field?) field?.isSome ∧
    Reads o (method .idle) ts stop (·.takeMethod method?) method?.isSome ∧
    (field?.isSome = true ∨ method?.isSome = true)

/-- Behind a name that has been read as a type, the name of the constant is that of a field, or with
parameters that of a method. -/
theorem takenAt_type (hl : o.language.memberOrder = .typeFirst) {r : TypeRef}
    (hx : c.remnant = .type r) (harguments : ∀ b ∈ arguments?, b.value.isBlock '(' = true)
    (hparams : ∀ b ∈ arguments?, (Parameter.ofParens o.language b).1 ≠ none) {stop : TokenTree}
    (hstop : MethodMachine.isBody stop.value = true)
    (hsemicolon : arguments? = none → stop.value.isSeparator ";" = true) :
    TakenAt o (c.named ++ arguments?.toList) stop := by
  obtain ⟨d, hfield⟩ := field_named_typed hl hx
  obtain ⟨d', hmethod⟩ := method_named_typed hl hx
  cases arguments? with
  | none =>
      have hsettles : Settles o (method .idle) c.named 2 := ⟨_, hmethod, Nat.le_refl 2, rfl⟩
      rw [Option.toList_none, List.append_nil]
      exact ⟨some _, none,
        ⟨_, _, hfield, field_stop hl (Or.inl (hsemicolon rfl)), deliver_field _⟩,
        method_settles_stop hl hsettles hstop, Or.inl rfl⟩
  | some block =>
      have hblock := harguments block rfl
      have hsettles : Settles o (field .idle) c.named 2 := ⟨_, hfield, Nat.le_refl 2, rfl⟩
      have hfront : Settles o (field .idle) (c.named ++ [block]) 1 :=
        hsettles.append_field fun m hm =>
          (field_settles_params hl hblock hm).mono (Nat.zero_le 1)
      obtain ⟨ps, hps⟩ := Option.ne_none_iff_exists'.1 (hparams block rfl)
      obtain ⟨line, hline⟩ := method_params (d := d') hl hblock hps
      have hnone : ∀ t ∈ ([] : List TokenTree), IsInner t := by simp
      have hfinish := method_finish { d' with params := ps, line } hl (by simp) hnone hstop
      exact ⟨none, some _, settles_stop hl hfront hstop,
        Reads.of_append hmethod rfl (Reads.of_step hline rfl hfinish), Or.inr rfl⟩

/-- Behind the parameters of a method, the name of the constant starts a clause. -/
theorem takenAt_clause (hl : o.language.memberOrder = .typeFirst) {r : TypeRef}
    {ps : List (Parameter TypeRef)} (hx : c.remnant = .parameters r ps)
    (hwhere : c.name.text = "where") (harguments : ∀ b ∈ arguments?, b.value.isBlock '(' = true)
    {stop : TokenTree} (hstop : MethodMachine.isBody stop.value = true) :
    TakenAt o (c.named ++ arguments?.toList) stop := by
  have hnot : ∀ r, c.remnant ≠ .type r := by
    intro r h
    rw [hx] at h
    cases h
  have hfront := (field_named hl c hnot).append_field fun m hm =>
    field_settles_arguments hl hm harguments
  obtain ⟨m, hleads, hm⟩ := method_leads (x := .nothing) (m := .idle) hl rfl c.leads
  change c.remnant.Methods o.language m at hm
  rw [hx] at hm
  obtain ⟨-, line, rfl⟩ := hm
  have hkind := c.isName.identifier
  have hclause : MethodMachine.startsClause c.name.value = true := by
    rw [startsClause_name hkind, hwhere]
    rfl
  have harrow : c.name.value.isOperator "=>" = false :=
    Token.isOperator_eq_false (by show c.name.kind ≠ _; rw [hkind]; decide) "=>"
  have hinner : ∀ t ∈ c.name :: arguments?.toList, IsInner t := by
    intro t ht
    rcases List.mem_cons.1 ht with rfl | ht
    · exact .word (Or.inr hkind)
    · exact .parens (harguments t (Option.mem_toList.1 ht))
  have hfinish := Reads.of_append hleads rfl
    (method_finish _ hl (by simpa using ⟨hclause, harrow⟩) hinner hstop)
  rw [show c.leads.flatMap (·.tokens) ++ c.name :: arguments?.toList =
    c.named ++ arguments?.toList by simp [WrittenConstant.named]] at hfinish
  exact ⟨none, some _, settles_stop hl hfront hstop, hfinish, Or.inr rfl⟩

/-- A constant that is not read ends a field or a method, at its body or else at a semicolon behind
it. -/
theorem rivals_take (hjava : o.language = .java) {stop : TokenTree}
    {style : o.language = .java} {isArguments : ∀ b ∈ arguments?, b.value.isBlock '(' = true}
    {isBody : ∀ b ∈ body?, b.value.isBlock '\x7b' = true}
    (htail : c.tail = .parts arguments? body? style isArguments isBody) (hread : ¬ c.IsRead)
    (hstop : body? = some stop ∨ body? = none ∧ stop.value.isSeparator ";" = true) :
    TakenAt o (c.named ++ arguments?.toList) stop := by
  have hl := typeFirst_of_java hjava
  have hends : MethodMachine.isBody stop.value = true := by
    rw [MethodMachine.isBody, Bool.or_eq_true]
    rcases hstop with h | h
    · exact Or.inr (isBody stop h)
    · exact Or.inl h.2
  by_cases hx : ∃ r, c.remnant = .type r
  · obtain ⟨r, hx⟩ := hx
    have hkeeps : ¬ c.tail.GivesUp := fun hgives => hread {
      behindType := fun _ _ => hgives
      behindParameters := fun _ r' ps h => by
        rw [hx] at h
        cases h }
    rw [htail] at hkeeps
    refine takenAt_type hl hx isArguments ?_ hends ?_
    · rintro b rfl
      exact hkeeps
    · rintro rfl
      rcases hstop with rfl | h
      · exact absurd rfl hkeeps
      · exact h.2
  · obtain ⟨r, ps, hx', hwhere⟩ : ∃ r ps, c.remnant = .parameters r ps ∧
        c.name.text = "where" := by
      by_contra hnone
      exact hread {
        behindType := fun r h => absurd ⟨r, h⟩ hx
        behindParameters := fun _ r ps h hwhere => hnone ⟨r, ps, h, hwhere⟩ }
    exact takenAt_clause hl hx' hwhere isArguments hends

end Extractor

end Outline

import Outline.Proofs.Member.MethodOffer
import Outline.Proofs.Member.ModifierRuns
import Outline.Proofs.Written.Words

/-!
# What a token does to the modifiers that are being read

A machine that reads fields or methods collects modifiers in front of the member, then reads the
member itself.  A `Stance` keeps of its state only what matters for that, and `Moves` has one case
for each way in which a token changes it.

* `Extractor.moves_accept` — the machines for fields and methods move in these ways only.
-/

namespace Outline

/-! ## Stances -/

/-- How far a member is read. -/
inductive Phase where
  /-- Annotations and modifiers are read; `started` tells whether giving them up is a failure, and
  `listed` whether there is a list of type parameters that is not empty. -/
  | lead (skip : Option AnnotationSkip) (started listed : Bool)
  /-- The type, the name and what stands behind them are read. -/
  | middle
  /-- The initializer is read. -/
  | initializer
  /-- A list of type parameters, a clause or an expression is read. -/
  | sealed
  /-- The member has ended. -/
  | complete
  /-- There is no member. -/
  | failed

/-- How far a member is read, with its modifiers. -/
structure Stance where
  /-- How far the member is read. -/
  phase : Phase
  /-- The modifiers. -/
  modifiers : List String

/-- The stance of a machine that has read nothing. -/
def Stance.idle : Stance := ⟨.lead none false false, []⟩

/-- The stance of a machine that reads fields. -/
def FieldMachine.stance : FieldMachine → Stance
  | head skip modifiers => ⟨.lead skip (!modifiers.isEmpty) false, modifiers⟩
  | type d _ | name d | afterName d | afterMark d | afterType d => ⟨.middle, d.modifiers⟩
  | initializer d => ⟨.initializer, d.modifiers⟩
  | complete d => ⟨.complete, d.modifiers⟩
  | failed => ⟨.failed, []⟩

/-- The stance of a machine that reads methods. -/
def MethodMachine.stance : MethodMachine → Stance
  | head started skip modifiers typeParams =>
    ⟨.lead skip started (!typeParams.isEmpty), modifiers⟩
  | typeParamList modifiers _ => ⟨.sealed, modifiers⟩
  | type d _ | name d | afterName d | afterParams d | returnType d _ | afterReturn d =>
    ⟨.middle, d.modifiers⟩
  | clause d | expression d => ⟨.sealed, d.modifiers⟩
  | complete d => ⟨.complete, d.modifiers⟩
  | failed => ⟨.failed, []⟩

theorem FieldMachine.stance_mapDraft {f : FieldDraft → FieldDraft}
    (hf : ∀ d, (f d).modifiers = d.modifiers) (m : FieldMachine) :
    (m.mapDraft f).stance = m.stance := by
  cases m <;> simp only [mapDraft, stance, hf]

theorem MethodMachine.stance_mapDraft {f : MethodDraft → MethodDraft}
    (hf : ∀ d, (f d).modifiers = d.modifiers) (m : MethodMachine) :
    (m.mapDraft f).stance = m.stance := by
  cases m <;> simp only [mapDraft, stance, hf]

/-- Whether a token ends a member. -/
def endsMember (t : Token) : Bool :=
  t.isSeparator ";" || t.isSeparator "," || t.isBlock '\x7b'

/-- Whether a token begins a member behind its modifiers, in the place of the type or the name or as
a list of type parameters. -/
def beginsMember (l : Language) (role : Capability) (t : Token) : Bool :=
  match l.memberOrder with
  | .typeFirst =>
    if role == .methodModifier then t.isOperator "<" || TypeMachine.starts l true t
    else TypeMachine.starts l false t
  | .nameFirst =>
    if role == .methodModifier then t.kind == .identifier || t.kind == .string
    else FieldMachine.isFieldName t

/-- The ways in which a token changes the stance of a machine, and whether it is used up. -/
inductive Moves (l : Language) (role : Capability) (t : Token) : Stance → Stance → Bool → Prop where
  /-- The token belongs to an annotation. -/
  | skips {skip skip' : Option AnnotationSkip} {started listed : Bool} {modifiers : List String}
      (h : AnnotationSkip.step l skip t = (skip', true)) :
      Moves l role t ⟨.lead skip started listed, modifiers⟩
        ⟨.lead skip' started listed, modifiers⟩ true
  /-- The token is a modifier. -/
  | marks {skip : Option AnnotationSkip} {started listed : Bool} {modifiers : List String}
      (h : l.marks role t = true) :
      Moves l role t ⟨.lead skip started listed, modifiers⟩
        ⟨.lead none true listed, modifiers ++ [t.text]⟩ true
  /-- The token begins the member. -/
  | begins {skip : Option AnnotationSkip} {started listed : Bool} {modifiers : List String}
      {phase : Phase} (hskip : (AnnotationSkip.step l skip t).2 = false)
      (hmarks : l.marks role t = false) (hbegins : beginsMember l role t = true)
      (hphase : phase = .middle ∨ phase = .sealed) :
      Moves l role t ⟨.lead skip started listed, modifiers⟩ ⟨phase, modifiers⟩ true
  /-- The token stands in front of any member. -/
  | lingers {skip : Option AnnotationSkip} {listed : Bool} {modifiers : List String}
      (hskip : (AnnotationSkip.step l skip t).2 = false) (hmarks : l.marks role t = false) :
      Moves l role t ⟨.lead skip false listed, modifiers⟩ ⟨.lead none false listed, []⟩ false
  /-- The modifiers in front of the token are given up. -/
  | gives {skip : Option AnnotationSkip} {listed : Bool} {modifiers : List String}
      (hskip : (AnnotationSkip.step l skip t).2 = false) (hmarks : l.marks role t = false)
      (hbegins : beginsMember l role t = true → listed = true ∧ t.isOperator "<" = true) :
      Moves l role t ⟨.lead skip true listed, modifiers⟩ ⟨.failed, []⟩ false
  /-- The token stands in the place of a type or a name and is none. -/
  | breaks {skip : Option AnnotationSkip} {started listed : Bool} {modifiers : List String}
      (hskip : (AnnotationSkip.step l skip t).2 = false) (hmarks : l.marks role t = false) :
      Moves l role t ⟨.lead skip started listed, modifiers⟩ ⟨.failed, []⟩ true
  /-- The token belongs to the member. -/
  | reads {modifiers : List String} (hmarks : l.marks role t = false) :
      Moves l role t ⟨.middle, modifiers⟩ ⟨.middle, modifiers⟩ true
  /-- The token begins the initializer. -/
  | assigns {modifiers : List String} (h : t.kind = .operator) :
      Moves l role t ⟨.middle, modifiers⟩ ⟨.initializer, modifiers⟩ true
  /-- The token begins a clause or an expression. -/
  | seals {modifiers : List String} :
      Moves l role t ⟨.middle, modifiers⟩ ⟨.sealed, modifiers⟩ true
  /-- The token belongs to the initializer. -/
  | initializes {modifiers : List String} :
      Moves l role t ⟨.initializer, modifiers⟩ ⟨.initializer, modifiers⟩ true
  /-- The token belongs to the list, the clause or the expression. -/
  | passes {modifiers : List String} :
      Moves l role t ⟨.sealed, modifiers⟩ ⟨.sealed, modifiers⟩ true
  /-- The token ends the list of type parameters. -/
  | closes {modifiers : List String} {listed : Bool} (h : TypeParamList.isAngles t = true) :
      Moves l role t ⟨.sealed, modifiers⟩ ⟨.lead none true listed, modifiers⟩ true
  /-- The token ends the member. -/
  | ends {modifiers : List String} {phase : Phase}
      (hphase : phase = .middle ∨ phase = .initializer ∨ phase = .sealed)
      (h : endsMember t = true) :
      Moves l role t ⟨phase, modifiers⟩ ⟨.complete, modifiers⟩ true
  /-- The member has ended in front of the token. -/
  | early {modifiers : List String} {phase : Phase}
      (hphase : phase = .middle ∨ phase = .initializer) :
      Moves l role t ⟨phase, modifiers⟩ ⟨.complete, modifiers⟩ false
  /-- There is no member. -/
  | fails {modifiers : List String} {taken : Bool}
      (hmarks : taken = true → l.marks role t = false) :
      Moves l role t ⟨.middle, modifiers⟩ ⟨.failed, []⟩ taken

/-! ## Types -/

section Types

variable {l : Language} {role : Capability} {t : Token}

theorem not_marks_of_kind (h : t.kind ≠ .keyword) : l.marks role t = false := by
  rw [Bool.eq_false_iff]
  exact fun hmarks => h (Language.kind_of_marks hmarks)

/-- A keyword in the place of a type is no modifier of a member. -/
theorem not_marks_of_type (hrole : role ∈ memberRoles)
    (h : l.has .type t.text = true ∨ t.text ∈ ["void", "null", "undefined"]) :
    l.marks role t = false := by
  have hhas : l.has role t.text = false := by
    rcases h with h | h
    · have hseparates : l.keywords.separates .type role = true := by
        revert role
        cases l <;> decide +kernel
      exact KeywordTable.has_eq_false_of_separates hseparates h
    · generalize t.text = word at h
      revert role word
      cases l <;> decide +kernel
  rw [Language.marks, hhas, Bool.and_false]

theorem not_marks_of_starts {allowVoid : Bool} (hrole : role ∈ memberRoles)
    (h : TypeMachine.starts l allowVoid t = true) : l.marks role t = false := by
  by_cases hkind : t.kind = .keyword
  · rw [TypeMachine.starts, hkind] at h
    refine not_marks_of_type hrole ?_
    rcases Bool.or_eq_true_iff.1 h with h | h
    · exact Or.inl h
    · exact Or.inr (by rw [beq_iff_eq.1 (Bool.and_eq_true_iff.1 h).2]; decide)
  · exact not_marks_of_kind hkind

theorem not_marks_of_isKeyword {word : String} (hrole : role ∈ memberRoles)
    (h : t.isKeyword word = true) (hword : word ∈ ["void", "null", "undefined"]) :
    l.marks role t = false :=
  not_marks_of_type hrole (Or.inr (by rw [Token.text_of_isKeyword h]; exact hword))

theorem not_marks_of_isOperator {op : String} (h : t.isOperator op = true) :
    l.marks role t = false :=
  not_marks_of_kind (by rw [Token.kind_of_isOperator h]; decide)

/-- A token of a type is no modifier of a member. -/
theorem TypeMachine.not_marks_of_taken {allowVoid : Bool} {m : TypeMachine}
    (hrole : role ∈ memberRoles) (h : (m.accept l allowVoid t).taken = true) :
    l.marks role t = false := by
  cases m with
  | idle =>
      rw [accept] at h
      split at h
      · exact absurd h Bool.false_ne_true
      · exact not_marks_of_starts hrole (by simpa using ‹¬ (!starts l allowVoid t) = true›)
  | found r =>
      rw [accept] at h
      split at h
      · exact not_marks_of_isOperator (Bool.and_eq_true_iff.1 ‹_›).2
      · split at h
        · exact not_marks_of_isOperator ‹_›
        · split at h
          · exact not_marks_of_isOperator (Bool.and_eq_true_iff.1 ‹_›).2
          · exact absurd h Bool.false_ne_true
  | union r =>
      rw [accept] at h
      split at h
      · rename_i hword
        rcases Bool.or_eq_true_iff.1 hword with hword | hword
        · exact not_marks_of_isKeyword hrole hword (by decide)
        · exact not_marks_of_isKeyword hrole hword (by decide)
      · split at h
        · exact absurd h Bool.false_ne_true
        · rename_i hstarts
          rw [Bool.or_eq_true, not_or] at hstarts
          exact not_marks_of_starts hrole (by simpa using hstarts.1)
  | functionParams =>
      rw [accept] at h
      split at h
      · exact not_marks_of_isOperator ‹_›
      · exact absurd h Bool.false_ne_true
  | functionArrow =>
      rw [accept] at h
      split at h
      · rename_i hword
        rcases Bool.or_eq_true_iff.1 hword with hword | hword
        · exact not_marks_of_starts hrole hword
        · exact not_marks_of_isKeyword hrole hword (by decide)
      · exact absurd h Bool.false_ne_true
  | complete r => exact absurd h Bool.false_ne_true
  | failed => exact absurd h Bool.false_ne_true

/-- A token that may start a type is used up by the reader of types, and more may follow. -/
theorem TypeMachine.accept_of_starts {allowVoid : Bool} (h : starts l allowVoid t = true) :
    ∃ m malformed, idle.accept l allowVoid t = ⟨m, true, malformed⟩ ∧ m.isComplete = false := by
  rw [accept, if_neg (by simp [h])]
  split
  · exact ⟨_, _, rfl, rfl⟩
  · unfold find
    split
    · exact ⟨_, _, rfl, rfl⟩
    · exact ⟨_, _, rfl, rfl⟩

end Types

/-! ## Fields -/

namespace FieldMachine

variable {l : Language} {t : Token}

/-- A token in front of the type or the name. -/
theorem moves_acceptHead {skip : Option AnnotationSkip} {modifiers : List String}
    {start : Option (Step FieldMachine)} (hw : ∀ s, skip = some s → l.annotationStyle = .atSign)
    (hstart : ∀ s, start = some s → (AnnotationSkip.step l skip t).2 = false →
      l.marks .fieldModifier t = false →
      Moves l .fieldModifier t (head skip modifiers).stance s.state.stance s.taken)
    (hnone : start = none → beginsMember l .fieldModifier t = false) :
    Moves l .fieldModifier t (head skip modifiers).stance
      (acceptHead l skip modifiers t start).state.stance
      (acceptHead l skip modifiers t start).taken := by
  rw [acceptHead]
  split
  · rename_i skip' hstep
    exact .skips hstep
  · rename_i skip' hstep
    obtain rfl := AnnotationSkip.eq_none_of_left hw hstep
    have hskip : (AnnotationSkip.step l skip t).2 = false := by rw [hstep]
    split
    · rename_i hmarks
      have hnonempty : (modifiers ++ [t.text]).isEmpty = false := by simp
      have hmoves : Moves l .fieldModifier t (head skip modifiers).stance
          ⟨.lead none true false, modifiers ++ [t.text]⟩ true := .marks hmarks
      simpa [Step.take, stance, hnonempty] using hmoves
    · rename_i hmarks
      have hmarks : l.marks .fieldModifier t = false := by simpa using hmarks
      cases start with
      | some s => exact hstart s rfl hskip hmarks
      | none =>
          cases modifiers with
          | nil => exact .lingers hskip hmarks
          | cons word modifiers =>
              refine .gives hskip hmarks fun hbegins => ?_
              rw [hnone rfl] at hbegins
              exact absurd hbegins Bool.false_ne_true

/-- A token of a type that is being read, or one behind it. -/
theorem moves_acceptType {d : FieldDraft} {tm : TypeMachine} {next : FieldDraft → FieldMachine}
    {accept : FieldDraft → Step FieldMachine}
    (hnext : ∀ d, (next d).stance = ⟨.middle, d.modifiers⟩)
    (haccept : ∀ d, Moves l .fieldModifier t ⟨.middle, d.modifiers⟩ (accept d).state.stance
      (accept d).taken) :
    Moves l .fieldModifier t ⟨.middle, d.modifiers⟩ (acceptType l d tm t next accept).state.stance
      (acceptType l d tm t next accept).taken := by
  have htaken : (tm.accept l false t).taken = true → l.marks .fieldModifier t = false :=
    TypeMachine.not_marks_of_taken (by decide)
  have htype := TypeMachine.accepts_accept l false tm t
  rw [acceptType]
  generalize tm.accept l false t = s at htaken htype
  cases htype with
  | @goes tm' malformed h hc hf =>
      cases tm' with
      | complete r => exact absurd hc (by simp [TypeMachine.isComplete])
      | failed => exact absurd hf (by decide)
      | _ => exact .reads (htaken rfl)
  | ends h =>
      simp only [if_true, hnext]
      exact .reads (htaken rfl)
  | @left r malformed => exact haccept { d with type? := some r }
  | fails => exact .fails htaken

/-- A token that may start the type. -/
theorem moves_acceptType_start {skip : Option AnnotationSkip} {modifiers : List String}
    {next : FieldDraft → FieldMachine} {accept : FieldDraft → Step FieldMachine}
    (hskip : (AnnotationSkip.step l skip t).2 = false)
    (hmarks : l.marks .fieldModifier t = false)
    (hbegins : beginsMember l .fieldModifier t = true)
    (hstarts : TypeMachine.starts l false t = true) :
    Moves l .fieldModifier t (head skip modifiers).stance
      (acceptType l { modifiers } .idle t next accept).state.stance
      (acceptType l { modifiers } .idle t next accept).taken := by
  obtain ⟨tm, malformed, hs, hc⟩ := TypeMachine.accept_of_starts hstarts
  rw [acceptType, hs]
  cases tm with
  | complete r => exact absurd hc (by simp [TypeMachine.isComplete])
  | failed => exact .breaks hskip hmarks
  | _ => exact .begins hskip hmarks hbegins (Or.inl rfl)

theorem moves_acceptName (d : FieldDraft) :
    Moves l .fieldModifier t ⟨.middle, d.modifiers⟩ (acceptName d t).state.stance
      (acceptName d t).taken := by
  rw [acceptName]
  split
  · rename_i h
    have hkind : t.kind = .identifier := beq_iff_eq.1 (Bool.and_eq_true_iff.1 h).1
    exact .reads (not_marks_of_kind (by rw [hkind]; decide))
  · exact .fails (by simp [Step.leave])

theorem endsMember_of_isEnd (h : isEnd t = true) : endsMember t = true := by
  rw [endsMember]
  rw [isEnd] at h
  rw [h, Bool.true_or]

theorem moves_acceptTail (d : FieldDraft) :
    Moves l .fieldModifier t ⟨.middle, d.modifiers⟩ (acceptTail d t).state.stance
      (acceptTail d t).taken := by
  rw [acceptTail]
  split
  · rename_i h
    exact .assigns (Token.kind_of_isOperator h)
  · split
    · exact .ends (Or.inl rfl) (endsMember_of_isEnd ‹_›)
    · split
      · exact .early (Or.inl rfl)
      · exact .fails (by simp [Step.leave])

theorem moves_acceptTypeFirst {m : FieldMachine} (hl : l.memberOrder = .typeFirst)
    (hw : FieldStage.Waits l m.stage) :
    Moves l .fieldModifier t m.stance (acceptTypeFirst l m t).state.stance
      (acceptTypeFirst l m t).taken := by
  have hbegins : beginsMember l .fieldModifier t = TypeMachine.starts l false t := by
    simp [beginsMember, hl]
  cases m with
  | head skip modifiers =>
      refine moves_acceptHead (fun s hs => hw.skip s modifiers (by rw [hs]; rfl)) ?_ ?_
      · intro s hs hskip hmarks
        split at hs
        · rename_i hstarts
          obtain rfl := Option.some.inj hs
          exact moves_acceptType_start hskip hmarks (by rw [hbegins, hstarts]) hstarts
        · exact absurd hs (by simp)
      · intro hnone
        rw [hbegins]
        split at hnone
        · exact absurd hnone (by simp)
        · simpa using ‹¬ TypeMachine.starts l false t = true›
  | type d machine => exact moves_acceptType (fun _ => rfl) fun d => moves_acceptName d
  | name d => exact moves_acceptName d
  | afterName d =>
      rw [acceptTypeFirst]
      split
      · exact .ends (Or.inl rfl) (endsMember_of_isEnd ‹_›)
      · split
        · rename_i h
          have hkind : t.kind = .operator := by
            rcases Bool.or_eq_true_iff.1 h with h | h <;> exact Token.kind_of_isOperator h
          exact .assigns hkind
        · split
          · rename_i h
            refine .ends (Or.inl rfl) ?_
            rw [endsMember, (Bool.and_eq_true_iff.1 h).1, Bool.or_true]
          · exact .fails (by simp [Step.leave])
  | initializer d =>
      rw [acceptTypeFirst]
      split
      · rename_i h
        refine .ends (Or.inr (Or.inl rfl)) ?_
        rw [endsMember, h, Bool.true_or, Bool.true_or]
      · exact .initializes
  | afterMark d =>
      have := hw.nameFirst (Or.inl rfl)
      rw [hl] at this
      exact absurd this (by decide)
  | afterType d =>
      have := hw.nameFirst (Or.inr rfl)
      rw [hl] at this
      exact absurd this (by decide)
  | complete d => exact absurd rfl hw.notEnded
  | failed => exact absurd rfl hw.notFailed

theorem moves_acceptNameFirst {m : FieldMachine} (hl : l.memberOrder = .nameFirst)
    (hw : FieldStage.Waits l m.stage) :
    Moves l .fieldModifier t m.stance (acceptNameFirst l m t).state.stance
      (acceptNameFirst l m t).taken := by
  have hbegins : beginsMember l .fieldModifier t = isFieldName t := by simp [beginsMember, hl]
  have hoperator : ∀ {op : String} {d : FieldDraft} {m' : FieldMachine}, t.isOperator op = true →
      m'.stance = ⟨.middle, d.modifiers⟩ →
      Moves l .fieldModifier t ⟨.middle, d.modifiers⟩ m'.stance true := by
    intro op d m' h hm'
    rw [hm']
    exact .reads (not_marks_of_isOperator h)
  cases m with
  | head skip modifiers =>
      refine moves_acceptHead (fun s hs => hw.skip s modifiers (by rw [hs]; rfl)) ?_ ?_
      · intro s hs hskip hmarks
        split at hs
        · rename_i hname
          obtain rfl := Option.some.inj hs
          exact .begins hskip hmarks (by rw [hbegins, hname]) (Or.inl rfl)
        · exact absurd hs (by simp)
      · intro hnone
        rw [hbegins]
        split at hnone
        · exact absurd hnone (by simp)
        · simpa using ‹¬ isFieldName t = true›
  | type d machine => exact moves_acceptType (fun _ => rfl) fun d => moves_acceptTail d
  | afterName d =>
      rw [acceptNameFirst]
      split
      · exact hoperator ‹_› rfl
      · split
        · exact hoperator ‹_› rfl
        · split
          · exact hoperator ‹_› rfl
          · exact moves_acceptTail d
  | afterMark d =>
      rw [acceptNameFirst]
      split
      · exact hoperator ‹_› rfl
      · exact moves_acceptTail d
  | afterType d => exact moves_acceptTail d
  | initializer d =>
      rw [acceptNameFirst]
      split
      · rename_i h
        refine .ends (Or.inr (Or.inl rfl)) ?_
        rw [endsMember, h, Bool.true_or, Bool.true_or]
      · split
        · exact .early (Or.inr rfl)
        · exact .initializes
  | name d =>
      have := hw.typeFirst rfl
      rw [hl] at this
      exact absurd this (by decide)
  | complete d => exact absurd rfl hw.notEnded
  | failed => exact absurd rfl hw.notFailed

/-- The ways in which the machine moves. -/
theorem moves_accept {o : Owner} {m : FieldMachine} (hw : FieldStage.Waits o.language m.stage)
    (ht : t.kind ≠ .comment) :
    Moves o.language .fieldModifier t m.stance (m.accept o t).state.stance
      (m.accept o t).taken := by
  refine accept_of_parts
    (P := fun s => Moves o.language .fieldModifier t m.stance s.state.stance s.taken)
    (fun h => absurd h ht) (fun hl _ => moves_acceptTypeFirst hl hw)
    (fun hl _ => moves_acceptNameFirst hl hw) ?_
  intro _ s line _ hs
  rwa [← stance_mapDraft (f := fun d => { d with line }) (fun _ => rfl) s.state] at hs

end FieldMachine

/-! ## Methods -/

namespace TypeParamList

/-- A list of type parameters ends with an angle bracket. -/
theorem isAngles_of_isClosed {list : TypeParamList} {t : Token} (hopen : list.isClosed = false)
    (h : (list.read t).isClosed = true) : isAngles t = true := by
  rw [read] at h
  split at h
  · assumption
  · have hdepth : isClosed (if list.depth == 1 && t.isSeparator "," then
        { list with expecting := true }
      else if list.depth == 1 && list.expecting && t.kind == .identifier then
        { list with params := list.params ++ [.simple t.text], expecting := false }
      else list) = list.isClosed := by
      split
      · rfl
      · split <;> rfl
    rw [hdepth, hopen] at h
    exact absurd h Bool.false_ne_true

end TypeParamList

namespace MethodMachine

variable {l : Language} {t : Token}

/-- A token of a type that is being read, or one behind it. -/
theorem moves_acceptType {d : MethodDraft} {tm : TypeMachine}
    {within : MethodDraft → TypeMachine → MethodMachine} {next : MethodDraft → MethodMachine}
    {accept : MethodDraft → Step MethodMachine}
    (hwithin : ∀ d tm, (within d tm).stance = ⟨.middle, d.modifiers⟩)
    (hnext : ∀ d, (next d).stance = ⟨.middle, d.modifiers⟩)
    (haccept : ∀ d, Moves l .methodModifier t ⟨.middle, d.modifiers⟩ (accept d).state.stance
      (accept d).taken) :
    Moves l .methodModifier t ⟨.middle, d.modifiers⟩
      (acceptType l d tm t within next accept).state.stance
      (acceptType l d tm t within next accept).taken := by
  have htaken : (tm.accept l true t).taken = true → l.marks .methodModifier t = false :=
    TypeMachine.not_marks_of_taken (by decide)
  have htype := TypeMachine.accepts_accept l true tm t
  rw [acceptType]
  generalize tm.accept l true t = s at htaken htype
  cases htype with
  | @goes tm' malformed h hc hf =>
      cases tm' with
      | complete r => exact absurd hc (by simp [TypeMachine.isComplete])
      | failed => exact absurd hf (by decide)
      | _ =>
          simp only [hwithin]
          exact .reads (htaken rfl)
  | ends h =>
      simp only [if_true, hnext]
      exact .reads (htaken rfl)
  | @left r malformed => exact haccept { d with returnType? := some r }
  | fails => exact .fails htaken

/-- A token that may start the type. -/
theorem moves_acceptType_start {started : Bool} {skip : Option AnnotationSkip}
    {modifiers : List String} {typeParams : List TypeRef}
    {next : MethodDraft → MethodMachine} {accept : MethodDraft → Step MethodMachine}
    (hskip : (AnnotationSkip.step l skip t).2 = false)
    (hmarks : l.marks .methodModifier t = false)
    (hbegins : beginsMember l .methodModifier t = true)
    (hstarts : TypeMachine.starts l true t = true) :
    Moves l .methodModifier t (head started skip modifiers typeParams).stance
      (acceptType l { modifiers, typeParams } .idle t type next accept).state.stance
      (acceptType l { modifiers, typeParams } .idle t type next accept).taken := by
  obtain ⟨tm, malformed, hs, hc⟩ := TypeMachine.accept_of_starts hstarts
  rw [acceptType, hs]
  cases tm with
  | complete r => exact absurd hc (by simp [TypeMachine.isComplete])
  | failed => exact .breaks hskip hmarks
  | _ => exact .begins hskip hmarks hbegins (Or.inl rfl)

/-- A token in front of a method. -/
theorem moves_acceptHead {started : Bool} {skip : Option AnnotationSkip} {modifiers : List String}
    {typeParams : List TypeRef} {rest : Option AnnotationSkip → Step MethodMachine}
    (hw : ∀ s, skip = some s → l.annotationStyle = .atSign)
    (hrest : (AnnotationSkip.step l skip t).2 = false → l.marks .methodModifier t = false →
      Moves l .methodModifier t (head started skip modifiers typeParams).stance
        (rest none).state.stance (rest none).taken) :
    Moves l .methodModifier t (head started skip modifiers typeParams).stance
      (acceptHead l started skip modifiers typeParams t rest).state.stance
      (acceptHead l started skip modifiers typeParams t rest).taken := by
  refine acceptHead_of_parts (P := fun s => Moves l .methodModifier t
    (head started skip modifiers typeParams).stance s.state.stance s.taken)
    (fun _ hstep => .skips hstep) ?_ ?_
  · intro skip' hstep hmarks
    obtain rfl := AnnotationSkip.eq_none_of_left hw hstep
    exact .marks hmarks
  · intro skip' hstep hmarks
    obtain rfl := AnnotationSkip.eq_none_of_left hw hstep
    exact hrest (by rw [hstep]) hmarks

/-- A token that cannot stand in the head of a method. -/
theorem moves_leaveHead {started : Bool} {skip : Option AnnotationSkip} {modifiers : List String}
    {typeParams : List TypeRef} (hskip : (AnnotationSkip.step l skip t).2 = false)
    (hmarks : l.marks .methodModifier t = false)
    (hbegins : beginsMember l .methodModifier t = true →
      (!typeParams.isEmpty) = true ∧ t.isOperator "<" = true) :
    Moves l .methodModifier t (head started skip modifiers typeParams).stance
      (leaveHead started none typeParams).state.stance
      (leaveHead started none typeParams).taken := by
  cases started with
  | true => exact .gives hskip hmarks hbegins
  | false => exact .lingers hskip hmarks

theorem moves_acceptName {d : MethodDraft} (h : t.kind = .identifier) :
    Moves l .methodModifier t ⟨.middle, d.modifiers⟩ (acceptName d t.text).state.stance
      (acceptName d t.text).taken := by
  have hmarks : l.marks .methodModifier t = false := not_marks_of_kind (by rw [h]; decide)
  unfold acceptName
  split
  · exact .reads hmarks
  · exact .fails fun _ => hmarks

theorem moves_acceptParams {d : MethodDraft} {tree : TokenTree}
    (h : tree.value.isBlock '(' = true) :
    Moves l .methodModifier tree.value ⟨.middle, d.modifiers⟩ (acceptParams l d tree).state.stance
      (acceptParams l d tree).taken := by
  have hmarks : l.marks .methodModifier tree.value = false :=
    not_marks_of_kind (by rw [Token.kind_of_isBlock h]; decide)
  unfold acceptParams
  split
  · exact .reads hmarks
  · exact .fails fun _ => hmarks

theorem moves_acceptAfterType {o : Owner} (d : MethodDraft) (tree : TokenTree) :
    Moves o.language .methodModifier tree.value ⟨.middle, d.modifiers⟩
      (acceptAfterType o d tree).state.stance (acceptAfterType o d tree).taken := by
  rw [acceptAfterType]
  split
  · exact moves_acceptName (beq_iff_eq.1 ‹_›)
  · split
    · rename_i h
      exact moves_acceptParams (d := { d with name := o.name?.getD "" })
        (Bool.and_eq_true_iff.1 h).1
    · exact .fails (by simp [Step.leave])

theorem endsMember_of_isBody (h : isBody t = true) : endsMember t = true := by
  rw [endsMember]
  rcases Bool.or_eq_true_iff.1 h with h | h
  · rw [h, Bool.true_or, Bool.true_or]
  · rw [h, Bool.or_true]

theorem moves_acceptTail (d : MethodDraft) :
    Moves l .methodModifier t ⟨.middle, d.modifiers⟩ (acceptTail d t).state.stance
      (acceptTail d t).taken := by
  rw [acceptTail]
  split
  · exact .ends (Or.inl rfl) (endsMember_of_isBody ‹_›)
  · split
    · exact .early (Or.inl rfl)
    · exact .fails (by simp [Step.leave])

theorem moves_acceptTypeFirst {o : Owner} {m : MethodMachine} {tree : TokenTree}
    (hl : o.language.memberOrder = .typeFirst) (hw : MethodStage.Waits o.language m.stage) :
    Moves o.language .methodModifier tree.value m.stance (acceptTypeFirst o m tree).state.stance
      (acceptTypeFirst o m tree).taken := by
  have hbegins : beginsMember o.language .methodModifier tree.value =
      (tree.value.isOperator "<" || TypeMachine.starts o.language true tree.value) := by
    simp [beginsMember, hl]
  cases m with
  | head started skip modifiers typeParams =>
      rw [acceptTypeFirst_head]
      refine moves_acceptHead (fun s hs => hw.skip s (by rw [hs]; rfl)) fun hskip hmarks => ?_
      split
      · rename_i h
        rw [Bool.and_eq_true] at h
        exact .begins hskip hmarks (by rw [hbegins, h.1, Bool.true_or]) (Or.inr rfl)
      · rename_i hlist
        split
        · rename_i hstarts
          exact moves_acceptType_start hskip hmarks (by rw [hbegins, hstarts, Bool.or_true]) hstarts
        · rename_i hstarts
          refine moves_leaveHead hskip hmarks fun h => ?_
          rw [hbegins, Bool.or_eq_true] at h
          have hangle := h.resolve_right hstarts
          rw [hangle, Bool.true_and] at hlist
          exact ⟨by simpa using hlist, hangle⟩
  | typeParamList modifiers list =>
      rw [acceptTypeFirst]
      simp only [Step.take]
      split
      · exact .closes (TypeParamList.isAngles_of_isClosed (hw.listed list rfl) ‹_›)
      · exact .passes
  | type d machine =>
      exact moves_acceptType (fun _ _ => rfl) (fun _ => rfl) fun d => moves_acceptAfterType d tree
  | name d => exact moves_acceptAfterType d tree
  | afterName d =>
      rw [acceptTypeFirst]
      split
      · exact moves_acceptParams ‹_›
      · exact .fails (by simp [Step.leave])
  | afterParams d =>
      rw [acceptTypeFirst]
      split
      · exact .ends (Or.inl rfl) (endsMember_of_isBody ‹_›)
      · split
        · exact .seals
        · split
          · exact .seals
          · exact .fails (by simp [Step.leave])
  | clause d =>
      rw [acceptTypeFirst]
      split
      · exact .ends (Or.inr (Or.inr rfl)) (endsMember_of_isBody ‹_›)
      · exact .passes
  | expression d =>
      rw [acceptTypeFirst]
      split
      · rename_i h
        refine .ends (Or.inr (Or.inr rfl)) ?_
        rw [endsMember, h, Bool.true_or, Bool.true_or]
      · exact .passes
  | returnType d machine =>
      have := hw.nameFirst (Or.inr ⟨machine, rfl⟩)
      rw [hl] at this
      exact absurd this (by decide)
  | afterReturn d =>
      have := hw.nameFirst (Or.inl rfl)
      rw [hl] at this
      exact absurd this (by decide)
  | complete d => exact absurd rfl hw.notEnded
  | failed => exact absurd rfl hw.notFailed

theorem moves_acceptNameFirst {o : Owner} {m : MethodMachine} {tree : TokenTree}
    (hl : o.language.memberOrder = .nameFirst) (hw : MethodStage.Waits o.language m.stage) :
    Moves o.language .methodModifier tree.value m.stance (acceptNameFirst o m tree).state.stance
      (acceptNameFirst o m tree).taken := by
  have hbegins : beginsMember o.language .methodModifier tree.value =
      (tree.value.kind == .identifier || tree.value.kind == .string) := by
    simp [beginsMember, hl]
  have hfirst : ∀ {P : Prop}, o.language.memberOrder = .typeFirst → P := by
    intro P h
    rw [hl] at h
    exact absurd h (by decide)
  have hoperator : ∀ {op : String} {d : MethodDraft} {m' : MethodMachine},
      tree.value.isOperator op = true → m'.stance = ⟨.middle, d.modifiers⟩ →
      Moves o.language .methodModifier tree.value ⟨.middle, d.modifiers⟩ m'.stance true := by
    intro op d m' h hm'
    rw [hm']
    exact .reads (not_marks_of_isOperator h)
  cases m with
  | head started skip modifiers typeParams =>
      rw [acceptNameFirst_head]
      refine moves_acceptHead (fun s hs => hw.skip s (by rw [hs]; rfl)) fun hskip hmarks => ?_
      split
      · rename_i hkind
        have hbegins : beginsMember o.language .methodModifier tree.value = true := by
          rw [hbegins]
          exact Bool.or_eq_true_iff.2 (Or.inl hkind)
        unfold acceptName
        split
        · exact .begins hskip hmarks hbegins (Or.inl rfl)
        · exact .breaks hskip hmarks
      · rename_i hident
        split
        · rename_i hkind
          refine .begins hskip hmarks ?_ (Or.inl rfl)
          rw [hbegins]
          exact Bool.or_eq_true_iff.2 (Or.inr hkind)
        · rename_i hstring
          refine moves_leaveHead hskip hmarks fun h => ?_
          rw [hbegins, Bool.or_eq_true] at h
          exact absurd h (not_or.2 ⟨hident, hstring⟩)
  | afterName d =>
      rw [acceptNameFirst]
      split
      · exact hoperator ‹_› rfl
      · split
        · exact moves_acceptParams ‹_›
        · exact .fails (by simp [Step.leave])
  | afterParams d =>
      rw [acceptNameFirst]
      split
      · exact hoperator ‹_› rfl
      · exact moves_acceptTail d
  | returnType d machine =>
      exact moves_acceptType (fun _ _ => rfl) (fun _ => rfl) fun d => moves_acceptTail d
  | afterReturn d => exact moves_acceptTail d
  | typeParamList modifiers list => exact hfirst (hw.typeFirst (Or.inr (Or.inr rfl)))
  | type d machine => exact hfirst (hw.typeFirst (Or.inr (Or.inl ⟨machine, rfl⟩)))
  | name d => exact hfirst (hw.typeFirst (Or.inl rfl))
  | clause d => exact hfirst (hw.typeFirst (Or.inr (Or.inr rfl)))
  | expression d => exact hfirst (hw.typeFirst (Or.inr (Or.inr rfl)))
  | complete d => exact absurd rfl hw.notEnded
  | failed => exact absurd rfl hw.notFailed

/-- The ways in which the machine moves. -/
theorem moves_accept {o : Owner} {m : MethodMachine} {tree : TokenTree}
    (hw : MethodStage.Waits o.language m.stage) (ht : tree.kind ≠ .comment) :
    Moves o.language .methodModifier tree.value m.stance (m.accept o tree).state.stance
      (m.accept o tree).taken := by
  refine accept_of_parts
    (P := fun s => Moves o.language .methodModifier tree.value m.stance s.state.stance s.taken)
    (fun h => absurd h ht) (fun hl _ => moves_acceptTypeFirst hl hw)
    (fun hl _ => moves_acceptNameFirst hl hw) ?_
  intro _ s line _ hs
  rwa [← stance_mapDraft (f := fun d => { d with line }) (fun _ => rfl) s.state] at hs

end MethodMachine

end Outline

import Outline.Proofs.Written.CalmRuns
import Outline.Proofs.Written.Leads
import Outline.Proofs.Written.Tokens

/-!
# Declarations as the machine that reads fields reads them

* `Extractor.Reads` — how a machine reads a declaration: the tokens in front of the last one, at
  which nothing ends, and the last one, at which a member may end.
* `Extractor.field_reads` — the machine that reads fields reads what `Written.readField?` tells.
-/

namespace Outline

namespace Harvest

/-- Adds a field, if there is one, with what waits for it. -/
def takeField (h : Harvest) : Option (Field TypeRef) → Harvest
  | none => h
  | some f =>
    { h.dropPending with
      members := { h.members with
        fields := h.members.fields ++
          [{ f with annotations := h.annotations, comments := h.comments }] } }

/-- Adds a method, if there is one, with what waits for it. -/
def takeMethod (h : Harvest) : Option (Method TypeRef) → Harvest
  | none => h
  | some m =>
    { h.dropPending with
      members := { h.members with
        methods := h.members.methods ++
          [{ m with annotations := h.annotations, comments := h.comments }] } }

end Harvest

namespace Extractor

variable {o : Owner} {t : TokenTree} {e e' : Extractor} {ts us front : List TokenTree}
  {stop : TokenTree} {gain : Harvest → Harvest} {taken : Bool}

/-! ## Declarations -/

/-- A machine reads the tokens `front` without ending anything and the token `stop`, where what has
been read gains something; `taken` tells whether the machine uses the last token up. -/
def Reads (o : Owner) (e : Extractor) (front : List TokenTree) (stop : TokenTree)
    (gain : Harvest → Harvest) (taken : Bool) : Prop :=
  ∃ e' ended, Passes o e front e' ∧ respond o stop e' = ⟨e.reset, ended, taken⟩ ∧
    ∀ h, ended.foldl (deliver o) h = gain h

/-- What is read depends on the first token only through what it makes of the machine. -/
theorem Passes.congr_first {last : Extractor} (hstep : respond o t e = respond o t e')
    (h : Passes o e' (t :: ts) last) : Passes o e (t :: ts) last := by
  obtain ⟨next, ended, taken, hnext, hended, hrest⟩ := h.first
  exact Feeds.cons (hstep.trans hnext) (fun h => (hended h).trans (Harvest.wait_nil h).symm) hrest

theorem Reads.congr_first (hstep : respond o t e = respond o t e') (hreset : e.reset = e'.reset)
    (h : Reads o e' (t :: ts) stop gain taken) : Reads o e (t :: ts) stop gain taken := by
  obtain ⟨last, ended, hpasses, hstop, hended⟩ := h
  exact ⟨last, ended, hpasses.congr_first hstep, hreset ▸ hstop, hended⟩

/-- A run in front of the declaration. -/
theorem Reads.of_append (hfront : Passes o e ts e') (hreset : e.reset = e'.reset)
    (h : Reads o e' us stop gain taken) : Reads o e (ts ++ us) stop gain taken := by
  obtain ⟨last, ended, hpasses, hstop, hended⟩ := h
  exact ⟨last, ended, hfront.append hpasses, hreset ▸ hstop, hended⟩

theorem Reads.of_step {used : Bool} (hstep : respond o t e = ⟨e', [], used⟩)
    (hreset : e.reset = e'.reset) (h : Reads o e' us stop gain taken) :
    Reads o e (t :: us) stop gain taken :=
  Reads.of_append (.one hstep) hreset h

/-- The last token of a declaration starts nothing. -/
theorem leaves_of_isBody (h : MethodMachine.isBody t.value = true) :
    (t.kind = .separator ∨ t.kind = .block) ∧ t.value.isSeparator "@" = false ∧
      ∀ b, b ≠ '\x7b' → t.value.isBlock b = false := by
  refine ⟨kind_of_isBody h, ?_, ?_⟩
  · rcases Bool.or_eq_true_iff.1 h with h | h
    · exact Token.isSeparator_ne h (by decide)
    · exact Token.isSeparator_eq_false (by rw [Token.kind_of_isBlock h]; decide) "@"
  · intro b hb
    rcases Bool.or_eq_true_iff.1 h with h | h
    · exact Token.isBlock_eq_false (by rw [Token.kind_of_isSeparator h]; decide) b
    · exact Token.isBlock_ne h hb.symm

/-- At the last token of a declaration a machine that is far from the end of a member becomes
idle. -/
theorem settles_stop (hl : o.language.memberOrder = .typeFirst) (h : Settles o e ts 1)
    (hstop : MethodMachine.isBody stop.value = true) : Reads o e ts stop id false := by
  obtain ⟨last, hpasses, hrank, hreset⟩ := h
  obtain ⟨hkind, hat, hblock⟩ := leaves_of_isBody hstop
  have hleaves := calm_leaves hl hrank hkind hat (hblock '[' (by decide)) (hblock '(' (by decide))
  exact ⟨last, [], hpasses, hreset ▸ hleaves, fun _ => rfl⟩

/-! ## Fields -/

theorem field_modifiers (hl : o.language.memberOrder = .typeFirst) {ms : List TokenTree}
    (h : ∀ m ∈ ms, o.language.marks .fieldModifier m.value = true) (texts : List String) :
    Passes o (field (.head none texts)) ms (field (.head none (texts ++ ms.map (·.text)))) := by
  induction ms generalizing texts with
  | nil => simpa using Feeds.nil _
  | cons m ms ih =>
      have hstep := field_modifier hl (h m List.mem_cons_self) texts
      have hrest := ih (fun m hm => h m (List.mem_cons_of_mem _ hm)) (texts ++ [m.text])
      rw [List.append_assoc] at hrest
      exact Passes.cons hstep hrest

theorem field_written_type (hl : o.language.memberOrder = .typeFirst)
    (r : WrittenType o.language false) (texts : List String) :
    ∃ m, Passes o (field (.head none texts)) r.tokens (field m) ∧ FieldTyped m texts r.ref := by
  have hword := field_type hl r.starts r.parsed texts
  unfold WrittenType.tokens WrittenType.ref
  cases hmark : r.mark? with
  | none => exact ⟨_, .one hword, Or.inl ⟨_, rfl⟩⟩
  | some q =>
      obtain ⟨m, hstep, hm⟩ := field_mark hl (r.marked q (by rw [hmark]; rfl)).2
      exact ⟨m, .cons hword (.one hstep), hm⟩

/-- A written field is read as it is written. -/
theorem field_written (hl : o.language.memberOrder = .typeFirst) (f : WrittenField o.language) :
    Reads o (field .idle) f.front f.stop (·.takeField (some (f.field o))) true := by
  have hmodifiers := field_modifiers hl f.modified []
  obtain ⟨m, htype, hm⟩ := field_written_type hl f.type ([] ++ f.modifiers.map (·.text))
  obtain ⟨line, hname⟩ := field_name hl hm f.isName.identifier
    (FieldMachine.isPlain_word f.isName.word)
  refine ⟨_, _, (hmodifiers.append htype).append (.one hname), field_stop hl f.stops, ?_⟩
  intro h
  simp [deliver, Harvest.addField, Harvest.takeField, FieldDraft.field, WrittenField.field]
  cases f.type.ref
  rfl

/-- A run behind another one, for the machine that reads fields. -/
theorem Settles.append_field {m : FieldMachine} {n k : Nat} (h : Settles o (field m) ts n)
    (h' : ∀ m' : FieldMachine, m'.rank ≤ n → Settles o (field m') us k) :
    Settles o (field m) (ts ++ us) k := by
  obtain ⟨e', hpasses, hrank, hreset⟩ := h
  cases e' with
  | field m' =>
      obtain ⟨last, hrest, hlast, hlast'⟩ := h' m' hrank
      exact ⟨last, hpasses.append hrest, hlast, hlast'⟩
  | _ => cases hreset

/-- Parameters take the machine back. -/
theorem field_settles_params {m : FieldMachine} (hl : o.language.memberOrder = .typeFirst)
    (h : t.value.isBlock '(' = true) (hm : m.rank ≤ 2) : Settles o (field m) [t] 0 := by
  have hkind := Token.kind_of_isBlock h
  have hordinary : Ordinary t := ordinary_of_kind (Or.inr (Or.inr hkind))
  have htail : FieldMachine.isTail t.value = false := by
    have hop : ∀ op, t.value.isOperator op = false :=
      Token.isOperator_eq_false (by rw [hkind]; decide)
    have hsep : ∀ sep, t.value.isSeparator sep = false :=
      Token.isSeparator_eq_false (by rw [hkind]; decide)
    simp [FieldMachine.isTail, FieldMachine.isEnd, hop, hsep,
      Token.isBlock_ne h (by decide : '(' ≠ '\x7b')]
  have hrank : rankAfter o.language t.value 2 = 0 := by
    have hstarts : TypeMachine.starts o.language true t.value = false := by
      rw [TypeMachine.starts, hkind]
      simp [hl]
    have hop : ∀ op, t.value.isOperator op = false :=
      Token.isOperator_eq_false (by rw [hkind]; decide)
    simp [rankAfter, hkind, hstarts, hop]
  obtain ⟨m', taken, hstep, hm'⟩ :=
    field_calm hl hordinary.notComment hordinary.notSign hm (Nat.le_refl 2) fun _ => htail
  exact ⟨field m', .one hstep, hrank ▸ hm', rfl⟩

/-- A method, up to its body. -/
theorem field_settles_method {m : FieldMachine} (hl : o.language.memberOrder = .typeFirst)
    (w : WrittenMethod o) (hm : m.rank ≤ 1) : Settles o (field m) w.front 1 := by
  have htype : ∀ e : Extractor, e.rank ≤ 1 → Settles o e (w.result?.elim [] (·.tokens)) 2 := by
    intro e he
    cases w.result? with
    | none => exact .nil (Nat.le_succ_of_le he)
    | some r => exact settles_type hl r he (Nat.le_refl 1)
  have hmodifiers := settles_modifiers (e := field m) hl (by decide) w.modified hm (by decide)
  have hname : ∀ m' : FieldMachine, m'.rank ≤ 2 → Settles o (field m') [w.name] 2 :=
    fun _ hm' => settles_identifier hl w.isName.identifier hm' (Nat.le_refl 2)
  refine (hmodifiers.append htype).append_field fun m' hm' => ?_
  refine (hname m' hm').append_field fun m' hm' => ?_
  refine (field_settles_params hl w.params.isBlock hm').append_field fun m' hm' => ?_
  exact settles_clause hl w.isClause (Nat.le_zero.1 hm')

/-- A declaration that is no field is passed over. -/
theorem field_quiet (hl : o.language.memberOrder = .typeFirst) {m : FieldMachine}
    (hm : m.rank ≤ 1) (w : Written o) (hw : w.field? = none) :
    Reads o (field m) w.front w.stop id false := by
  refine settles_stop hl ?_ w.isBody_stop
  cases w with
  | field f => exact absurd hw (by simp [Written.field?])
  | method w => exact field_settles_method hl w hm
  | nested n => exact settles_nested hl n hm

/-! ## Behind annotations -/

/-- Behind a type, a first token that cannot be the name is read as if nothing had been read. -/
theorem field_typed_retries {m : FieldMachine} {modifiers : List String} {r : TypeRef}
    (hl : o.language.memberOrder = .typeFirst) (hm : FieldTyped m modifiers r)
    (hword : t.kind = .keyword ∨ t.kind = .identifier)
    (hname : (t.kind == .identifier && FieldMachine.isPlain t.text) = false) :
    respond o t (field m) = respond o t (field .idle) := by
  have ht : t.kind ≠ .comment := by rcases hword with h | h <;> rw [h] <;> decide
  have hop : ∀ op, t.value.isOperator op = false := Token.isOperator_eq_false
    (by show t.kind ≠ _; rcases hword with h | h <;> rw [h] <;> decide)
  have hleft : ∀ d, FieldMachine.acceptName d t.value = .leave .failed := by
    intro d
    have hname : (t.value.kind == .identifier && FieldMachine.isPlain t.value.text) = false := hname
    rw [FieldMachine.acceptName, hname, if_neg Bool.false_ne_true]
  rcases hm with ⟨line, rfl⟩ | ⟨line, rfl⟩
  · have haccept := FieldMachine.accept_found (d := { modifiers, line }) (r := r) hl (hop "?")
      (hop "...")
    exact field_retries hl ht (haccept.trans (hleft _)) rfl
  · exact field_retries hl ht ((FieldMachine.accept_name _ _ _).trans (hleft _)) rfl

/-- So is a word behind the name. -/
theorem field_named_retries (hl : o.language.memberOrder = .typeFirst)
    (hword : t.kind = .keyword ∨ t.kind = .identifier) (d : FieldDraft) :
    respond o t (field (.afterName d)) = respond o t (field .idle) := by
  have ht : t.kind ≠ .comment := by rcases hword with h | h <;> rw [h] <;> decide
  have htail := isTail_of_word hword
  simp only [FieldMachine.isTail, Bool.or_eq_false_iff] at htail
  have haccept : FieldMachine.acceptTypeFirst o.language (.afterName d) t.value =
      .leave .failed := by
    simp [FieldMachine.acceptTypeFirst, htail]
  exact field_retries hl ht haccept rfl

/-- Behind a type, the type of a field is read as its name and the name as a type, so that the
field is lost. -/
theorem field_lost {r : TypeRef} {line : Nat} (hl : o.language.memberOrder = .typeFirst)
    (hstyle : o.language.annotationStyle = .atSign) (f : WrittenField o.language)
    (hmodifiers : f.modifiers = []) (hkind : f.type.word.kind = .identifier)
    (hplain : FieldMachine.isPlain f.type.word.text = true) :
    Reads o (field (.type { modifiers := [], line } (.found r))) f.front f.stop id false := by
  have hmark : f.type.mark? = none := by
    by_contra hsome
    obtain ⟨q, hq⟩ := Option.ne_none_iff_exists'.1 hsome
    rw [(f.type.marked q hq).1] at hstyle
    exact absurd hstyle (by decide)
  have hfront : f.front = [f.type.word, f.name] := by
    rw [WrittenField.front, WrittenType.tokens, hmodifiers, hmark]
    rfl
  obtain ⟨line', hname⟩ := field_name hl (Or.inl ⟨line, rfl⟩ : FieldTyped _ [] r) hkind hplain
  have hretry := field_named_retries hl (Or.inr f.isName.identifier)
  obtain ⟨last, hlast, hrank, hreset⟩ :=
    settles_identifier (e := field .idle) hl f.isName.identifier (Nat.zero_le 0) (by decide)
  have hpasses : Settles o (field (.type { modifiers := [], line } (.found r))) f.front 1 :=
    ⟨last, hfront ▸ .cons hname (hlast.congr_first (hretry _)), hrank, hreset⟩
  exact settles_stop hl hpasses (Written.field f : Written o).isBody_stop

/-- The machine that reads fields reads a declaration as what it keeps of annotations tells. -/
theorem field_reads {x : Remnant} {m : FieldMachine} (hl : o.language.memberOrder = .typeFirst)
    (hx : x.Fields o.language m) (w : Written o) :
    Reads o (field m) w.front w.stop (·.takeField (w.readField? x)) (w.readField? x).isSome := by
  obtain ⟨rest, hfront⟩ := w.exists_front
  have hword := w.word_first hl
  have hfresh : Reads o (field .idle) w.front w.stop (·.takeField w.field?) w.field?.isSome := by
    cases hw : w.field? with
    | none => exact field_quiet (m := .idle) hl (Nat.zero_le 1) w hw
    | some f =>
        cases w with
        | field f =>
            cases hw
            exact field_written hl f
        | _ => cases hw
  have hretry (h : respond o w.first (field m) = respond o w.first (field .idle)) :
      Reads o (field m) w.front w.stop (·.takeField w.field?) w.field?.isSome := by
    rw [hfront] at hfresh ⊢
    exact hfresh.congr_first h rfl
  cases x with
  | nothing =>
      obtain rfl := hx
      exact hfresh
  | parameters r ps =>
      obtain ⟨-, rfl⟩ := hx
      exact hfresh
  | arguments =>
      obtain ⟨hstyle, rfl⟩ := hx
      exact hretry (field_arguments hl hstyle hword)
  | type r =>
      obtain ⟨hstyle, line, rfl⟩ := hx
      rw [Written.readField?]
      by_cases hname : (w.first.kind == .identifier && FieldMachine.isPlain w.first.text) = true
      · rw [if_pos hname]
        cases w with
        | field f =>
            rw [Bool.and_eq_true, beq_iff_eq] at hname
            cases hm : f.modifiers with
            | nil =>
                simp only [Written.first, hm, List.headD_nil] at hname
                exact field_lost hl hstyle f hm hname.1 hname.2
            | cons q qs =>
                have hkeyword := Language.kind_of_marks (f.modified q (by rw [hm]; simp))
                have hidentifier := hname.1
                simp only [Written.first, hm, List.headD_cons] at hidentifier
                exact absurd (hkeyword.symm.trans hidentifier) (by decide)
        | _ => exact field_quiet (m := .type _ (.found r)) hl (Nat.le_refl 1) _ rfl
      · rw [if_neg hname]
        rw [Bool.not_eq_true] at hname
        exact hretry (field_typed_retries hl (Or.inl ⟨line, rfl⟩ : FieldTyped _ [] r) hword hname)

end Extractor

end Outline

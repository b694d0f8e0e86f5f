import Outline.Proofs.Written.Behind
import Outline.Proofs.Written.ConstantRivals
import Outline.Proofs.Written.ConstantSteps
import Outline.Proofs.Written.Exact

/-!
# Constants are read as they are written

The body of an enumeration is read one constant after the other.  After the comma behind a constant
no machine has read anything, and behind a semicolon no constant is read any more.  A constant that
is not read as it is written loses its annotations and comments to a field or a method that ends at
its body or behind it, and nothing else.

* `Extractor.readAll_constant` — a constant that is read, fed to the machines.
* `Extractor.enumMembers_behind` — no token behind a semicolon yields a constant.
* `Extractor.run_constants` — what is read from the bodies in which constants are written.
* `Extractor.enumMembers_robbed` — what is read from a constant that is not read as it is written.
* `Members.constants_iff` — exactly the constants that are written are read from a body and from
  every part of it if and only if each keeps its annotations and comments.
-/

namespace Outline

namespace Extractor

variable {o : Owner} {t : TokenTree} {ts us : List TokenTree} {c : WrittenConstant o}

/-! ## Several machines -/

theorem Keeps.passes {e e' : Extractor} (h : Keeps o e ts e') : Passes o e ts e' := by
  induction h with
  | nil e => exact .nil e
  | cons hstep hbrace hrest ih => exact .cons hstep ih

/-- What machines that read on do not add. -/
theorem foldl_passes {es : List Extractor} (h : ∀ e ∈ es, ∃ e', Passes o e (t :: ts) e')
    (before : Harvest) :
    (es.flatMap fun e => (respond o t e).ended).foldl (deliver o) before = before := by
  induction es generalizing before with
  | nil => rfl
  | cons e es ih =>
      obtain ⟨e', hpasses⟩ := h e List.mem_cons_self
      obtain ⟨e₁, ended, taken, hstep, hended, -⟩ := hpasses.first
      rw [List.flatMap_cons, List.foldl_append, hstep, hended]
      exact ih (fun e he => h e (List.mem_cons_of_mem _ he)) before

/-- A run in which the machines in front only read on, one behind them uses up every body, and the
last two read annotations and comments. -/
theorem bare_keeps {es : List Extractor} {e e' a a' c c' : Extractor} {as : List Annotation}
    {cs : List String} (hes : ∀ e ∈ es, ∃ e', Passes o e ts e') (he : Keeps o e ts e')
    (ha : Feeds o a ts as [] a') (hc : Feeds o c ts [] cs c') (h : Harvest) :
    (readAll o (es ++ [e, a, c]) h ts).2.bare = h.bare.wait as cs := by
  induction ts generalizing es e a c as cs h with
  | nil =>
      cases ha
      cases hc
      exact (Harvest.wait_nil h.bare).symm
  | cons t ts ih =>
      cases he with
      | @cons _ e₁ _ _ _ taken hestep hbrace he =>
          obtain ⟨a₁, aended, at₁, as₁, as₂, _, _, hastep, haended, ha, rfl, hnil⟩ := ha.first
          obtain ⟨c₁, cended, ct, _, _, cs₁, cs₂, hcstep, hcended, hc, hnil', rfl⟩ := hc.first
          obtain ⟨rfl, rfl⟩ := List.append_eq_nil_iff.1 hnil.symm
          obtain ⟨rfl, rfl⟩ := List.append_eq_nil_iff.1 hnil'.symm
          obtain ⟨hmachines, hharvest⟩ := read_respond o t (es ++ [e, a, c]) h
          have hused : (!(es ++ [e, a, c]).any (fun e => (respond o t e).taken) &&
              t.value.isBlock '\x7b') = false := by
            rcases hbrace with rfl | hbrace
            · simp [hestep]
            · rw [hbrace, Bool.and_false]
          simp only [hused, Bool.false_eq_true, if_false, List.flatMap_append, List.foldl_append,
            foldl_passes hes, List.flatMap_cons, List.flatMap_nil, hestep, hastep, hcstep,
            haended, hcended, List.foldl_nil] at hharvest
          have hnext : ∀ e ∈ es.map fun e => (respond o t e).machine,
              ∃ e', Passes o e ts e' := by
            intro e he
            obtain ⟨e₀, he₀, rfl⟩ := List.mem_map.1 he
            obtain ⟨e', hpasses⟩ := hes e₀ he₀
            obtain ⟨e₁, ended, taken, hstep, -, hrest⟩ := hpasses.first
            rw [hstep]
            exact ⟨e', hrest⟩
          have hcons : readAll o (es ++ [e, a, c]) h (t :: ts) =
              readAll o (read o (es ++ [e, a, c]) h t).1 (read o (es ++ [e, a, c]) h t).2 ts := rfl
          rw [hcons, hmachines]
          simp only [List.map_append, List.map_cons, List.map_nil, hestep, hastep, hcstep]
          rw [ih hnext he ha hc, hharvest, Harvest.wait_wait, Harvest.wait_wait,
            List.nil_append, List.nil_append]

/-! ## The machines of an enumeration -/

/-- The machines that read fields and methods in an enumeration, where it may have them. -/
def rivals (l : Language) : List Extractor :=
  if l.hasFieldsAndMethods .enumLike then [field .idle, method .idle] else []

/-- The machines that read the body of an enumeration, with the state of the one that reads
constants. -/
def enumMachines (l : Language) (m : EnumMemberMachine) : List Extractor :=
  rivals l ++ [enumMember m, annotations .idle, comment none]

theorem extractors_enumLike (l : Language) :
    Members.extractors l .enumLike = enumMachines l {} := by
  cases l <;> rfl

theorem of_mem_rivals {l : Language} {e : Extractor} (he : e ∈ rivals l) :
    l = .java ∧ (e = field .idle ∨ e = method .idle) := by
  cases l with
  | java => exact ⟨rfl, by simpa [rivals, Language.hasFieldsAndMethods] using he⟩
  | _ => exact absurd he (by simp [rivals, Language.hasFieldsAndMethods])

/-- Only one of them reads constants. -/
theorem eq_of_mem_enumMachines {l : Language} {e : Extractor} {m : EnumMemberMachine}
    (he : e ∈ enumMachines l m) (hname : e.name = "enum member") : e = enumMember m := by
  rcases List.mem_append.1 he with he | he
  · obtain ⟨-, rfl | rfl⟩ := of_mem_rivals he <;> exact absurd hname (by decide)
  · simp only [List.mem_cons, List.not_mem_nil, or_false] at he
    rcases he with rfl | rfl | rfl <;> first | rfl | exact absurd hname (by decide)

/-- A constant that is read ends no field and no method. -/
theorem rivals_settle (hread : c.IsRead) :
    ∀ e ∈ rivals o.language, Settles o e c.tokens 1 ∧ e.reset = e := by
  intro e he
  obtain ⟨hjava, rfl | rfl⟩ := of_mem_rivals he
  · exact ⟨field_settles_constant hjava hread, rfl⟩
  · exact ⟨method_settles_constant hjava hread, rfl⟩

/-- The annotations in front of a constant are read, and no others. -/
theorem annotation_named (c : WrittenConstant o) :
    Feeds o (annotations .idle) c.named c.annotations [] (annotations .idle) := by
  obtain ⟨a, held, read, hleads, ha, hread⟩ :=
    annotation_leads (o := o) (Or.inl ⟨rfl, rfl⟩) c.leads
  have hname : IsInner c.name := .word (Or.inr c.isName.identifier)
  have hall := hleads.append
    (annotation_word ha (IsInner.silent hname) (isParen_of_word (Or.inr c.isName.identifier)))
  rwa [List.append_nil, hread, List.nil_append] at hall

theorem comment_named (c : WrittenConstant o) :
    Feeds o (comment none) c.named [] c.comments (comment none) := by
  have hname : IsInner c.name := .word (Or.inr c.isName.identifier)
  have hall := (comment_leads (o := o) c.leads).append
    (Passes.one (comment_passes hname.notComment))
  rwa [List.append_nil, List.append_nil] at hall

theorem silent_of_isBlock {b : Char} (h : t.value.isBlock b = true) (hb : b ≠ '[') : Silent t :=
  ⟨kind_ne_of_isBlock h,
    Token.isSeparator_eq_false (by rw [Token.kind_of_isBlock h]; decide) "@",
    Token.isBlock_ne h hb⟩

theorem silent_of_isSeparator {sep : String} (h : t.value.isSeparator sep = true)
    (hsep : sep ≠ "@") : Silent t :=
  ⟨kind_ne_of_isSeparator h, Token.isSeparator_ne h hsep,
    Token.isBlock_eq_false (by rw [Token.kind_of_isSeparator h]; decide) '['⟩

/-- A separator other than an at sign takes a machine that has read no name back. -/
theorem separator_leaves {e : Extractor} {sep : String} (hl : o.language.memberOrder = .typeFirst)
    (he : e.rank ≤ 1) (h : t.value.isSeparator sep = true) (hsep : sep ≠ "@") :
    respond o t e = ⟨e.reset, [], false⟩ := by
  have hkind := Token.kind_of_isSeparator h
  have hblock : ∀ b, t.value.isBlock b = false :=
    Token.isBlock_eq_false (by rw [hkind]; decide)
  exact calm_leaves hl he (Or.inl hkind) (Token.isSeparator_ne h hsep) (hblock '[') (hblock '(')

/-- Behind the name of a constant there are no comments and no annotations. -/
theorem silent_tail {l : Language} (tail : ConstantTail l) : ∀ t ∈ tail.tokens, Silent t := by
  intro t ht
  cases tail with
  | value assigned? style isEquals isValue =>
      cases assigned? with
      | none => exact absurd ht List.not_mem_nil
      | some a =>
          rcases List.mem_cons.1 ht with rfl | ht
          · exact IsInner.silent (.operator (Token.kind_of_isOperator (isEquals a rfl)))
          · exact ((isValue a rfl).2 t ht).toSilent
  | parts arguments? body? style isArguments isBody =>
      rcases List.mem_append.1 ht with ht | ht
      · exact silent_of_isBlock (isArguments t (Option.mem_toList.1 ht)) (by decide)
      · exact silent_of_isBlock (isBody t (Option.mem_toList.1 ht)) (by decide)

/-- Behind the name of a constant and silent tokens, at which the machines only read on, its
annotations and comments wait for it. -/
theorem readAll_named {m : EnumMemberMachine}
    (hrivals : ∀ e ∈ rivals o.language, ∃ e', Passes o e (c.named ++ ts) e')
    (hkeeps : Keeps o (enumMember {}) (c.named ++ ts) (enumMember m))
    (hsilent : ∀ t ∈ ts, Silent t) (h : Harvest) :
    (readAll o (enumMachines o.language {}) h (c.named ++ ts)).1 =
        (rivals o.language).map (fun e => after o e (c.named ++ ts)) ++
          [enumMember m, annotations .idle, comment none] ∧
      (readAll o (enumMachines o.language {}) h (c.named ++ ts)).2.bare =
        h.bare.wait c.annotations c.comments := by
  have ha := (annotation_named c).append (annotation_run hsilent)
  have hc := (comment_named c).append (comment_run fun t ht => (hsilent t ht).notComment)
  rw [List.append_nil, List.append_nil] at ha hc
  refine ⟨?_, bare_keeps hrivals hkeeps ha hc h⟩
  rw [readAll_after, enumMachines, List.map_append]
  simp only [List.map_cons, List.map_nil, after_of_feeds hkeeps.passes, after_of_feeds ha,
    after_of_feeds hc]

/-- So they do behind a constant that is read. -/
theorem readAll_constant (hread : c.IsRead) (h : Harvest) :
    ∃ m, ReadTo c.draft m ∧
      (readAll o (enumMachines o.language {}) h c.tokens).1 =
        (rivals o.language).map (fun e => after o e c.tokens) ++
          [enumMember m, annotations .idle, comment none] ∧
      (readAll o (enumMachines o.language {}) h c.tokens).2.bare =
        h.bare.wait c.annotations c.comments := by
  obtain ⟨m, hkeeps, hm⟩ := constant_keeps c
  have hrivals : ∀ e ∈ rivals o.language, ∃ e', Passes o e c.tokens e' := by
    intro e he
    obtain ⟨⟨e', hpasses, -⟩, -⟩ := rivals_settle hread e he
    exact ⟨e', hpasses⟩
  exact ⟨m, hm, readAll_named hrivals hkeeps (silent_tail c.tail) h⟩

/-- A comma or a semicolon behind a constant that is read ends it, and nothing else. -/
theorem readAll_stopped (ended : Bool) (hread : c.IsRead) {stop : TokenTree}
    (hstop : stop.value.isSeparator (if ended then ";" else ",") = true) (h : Harvest) :
    (readAll o (enumMachines o.language {}) h (c.tokens ++ [stop])).1 =
        enumMachines o.language ⟨.head none, ended⟩ ∧
      (readAll o (enumMachines o.language {}) h (c.tokens ++ [stop])).2.bare =
        (h.bare.wait c.annotations c.comments).addEnumMember o c.draft := by
  obtain ⟨m, hm, hmachines, hbare⟩ := readAll_constant hread h
  have hsign : (if ended then ";" else ",") ≠ "@" := by cases ended <;> decide
  have hsilent := silent_of_isSeparator hstop hsign
  have hbrace : stop.value.isBlock '\x7b' = false :=
    Token.isBlock_eq_false (by rw [Token.kind_of_isSeparator hstop]; decide) '\x7b'
  have hleaves : ∀ e ∈ rivals o.language,
      respond o stop (after o e c.tokens) = ⟨e, [], false⟩ := by
    intro e he
    obtain ⟨⟨e', hpasses, hrank, hreset'⟩, hreset⟩ := rivals_settle hread e he
    rw [after_of_feeds hpasses, separator_leaves (typeFirst_of_java (of_mem_rivals he).1) hrank
      hstop hsign, hreset', hreset]
  rw [readAll_append, hmachines]
  obtain ⟨hread, hharvest⟩ := read_respond o stop ((rivals o.language).map
    (fun e => after o e c.tokens) ++ [enumMember m, annotations .idle, comment none])
    (readAll o (enumMachines o.language {}) h c.tokens).2
  have hsame : (rivals o.language).map (fun e => (respond o stop (after o e c.tokens)).machine) =
      rivals o.language := by
    refine (List.map_congr_left fun e he => ?_).trans (List.map_id _)
    rw [hleaves e he]
    rfl
  have hnone : (rivals o.language).flatMap (fun e => (respond o stop (after o e c.tokens)).ended) =
      [] := by
    refine List.flatMap_eq_nil_iff.2 fun e he => ?_
    rw [hleaves e he]
  refine ⟨hread.trans ?_, hharvest.trans ?_⟩
  · simp only [List.map_append, List.map_map, Function.comp_def, hsame, List.map_cons,
      List.map_nil, constant_stop ended hm hstop, annotation_silent hsilent,
      comment_passes hsilent.notComment]
    rfl
  · simp [List.flatMap_map, hnone, hbrace, constant_stop ended hm hstop, annotation_silent hsilent,
      comment_passes hsilent.notComment, deliver, hbare]

/-! ## The end of the list -/

/-- The machine that reads constants waits for a token behind any run of them. -/
theorem waits_after (o : Owner) (ts : List TokenTree) :
    ∃ m, after o (enumMember {}) ts = enumMember m ∧ EnumMemberMachine.Waits o.language m := by
  refine after_induction (P := fun e => ∃ m, e = enumMember m ∧
    EnumMemberMachine.Waits o.language m) _ ts ⟨{}, rfl, EnumMemberMachine.waits_idle _ _⟩ ?_
  rintro t - e ⟨m, rfl, hm⟩
  by_cases ht : t.kind = .comment
  · rw [constant_comment ht hm.notFailed hm.notEnded]
    exact ⟨m, rfl, hm⟩
  · obtain ⟨m', uses, hoffer, hwaits⟩ := enumMemberOffer_of_offer 0 [] hm ht
    refine ⟨m', ?_, hwaits.waits⟩
    rw [respond, hoffer]

/-- A semicolon belongs to no annotation. -/
theorem skip_semicolon {l : Language} {m : EnumMemberMachine} {skip : Option AnnotationSkip}
    (hm : EnumMemberMachine.Waits l m) (hstage : m.stage = .head skip)
    (h : t.value.isSeparator ";" = true) : AnnotationSkip.step l skip t.value = (none, false) := by
  have hkind := Token.kind_of_isSeparator h
  have hblock : ∀ b, t.value.isBlock b = false :=
    Token.isBlock_eq_false (by rw [hkind]; decide)
  have hat := Token.isSeparator_ne h (by decide : ";" ≠ "@")
  cases skip with
  | none =>
      unfold AnnotationSkip.step
      cases l.annotationStyle <;> simp [hat, hblock]
  | some s =>
      have hstyle := hm.skip s hstage
      cases s <;> simp [AnnotationSkip.step, hstyle, hkind, hblock]

/-- In front of a constant, a semicolon ends the list of constants. -/
theorem head_ends {skip : Option AnnotationSkip}
    (hm : EnumMemberMachine.Waits o.language ⟨.head skip, false⟩)
    (h : t.value.isSeparator ";" = true) : respond o t (enumMember ⟨.head skip, false⟩) =
      ⟨enumMember ⟨.head none, true⟩, [], true⟩ := by
  have hname := EnumMemberMachine.isConstantName_eq_false (t := t.value)
    (by rw [Token.kind_of_isSeparator h]; decide)
  refine constant_takes ?_ rfl rfl
  rw [EnumMemberMachine.accept_head (kind_ne_of_isSeparator h), skip_semicolon hm rfl h]
  simp [hname, h]

/-- Behind a semicolon the list of constants has ended. -/
theorem ended_respond {m : EnumMemberMachine} (hm : EnumMemberMachine.Waits o.language m)
    (h : t.value.isSeparator ";" = true) :
    (respond o t (enumMember m)).machine = enumMember ⟨.head none, true⟩ := by
  obtain ⟨stage, ended⟩ := m
  cases ended with
  | true =>
      rw [EnumMemberMachine.eq_idle_of_isIdle (hm.atEnd rfl)]
      have hleaves := constant_leaves (o := o) (t := t) (m := ⟨.head none, true⟩) rfl rfl rfl
      rw [hleaves]
  | false =>
      cases stage with
      | head skip => rw [head_ends hm h]
      | afterName d => rw [constant_stop true (Or.inl rfl) h]
      | value d => rw [constant_stop true (Or.inr rfl) h]
      | complete d => exact absurd hm.notEnded (by simp [EnumMemberMachine.isComplete])
      | failed => exact absurd hm.notFailed (by simp [EnumMemberMachine.isFailed])

/-- Nothing is read behind the end of the list. -/
theorem ended_passes (ts : List TokenTree) :
    Passes o (enumMember ⟨.head none, true⟩) ts (enumMember ⟨.head none, true⟩) := by
  induction ts with
  | nil => exact .nil _
  | cons t ts ih => exact .cons (constant_leaves (m := ⟨.head none, true⟩) rfl rfl rfl) ih

/-- No token behind a semicolon yields a constant. -/
theorem enumMembers_behind (o : Owner) (ts us : List TokenTree) {stop : TokenTree}
    (hstop : stop.value.isSeparator ";" = true) :
    (run o (enumMachines o.language {}) (ts ++ stop :: us)).members.enumMembers =
      (readAll o (enumMachines o.language {}) {} (ts ++ [stop])).2.members.enumMembers := by
  have hadds : ∀ e ∈ enumMachines o.language {},
      AddsNone o "enum member" us (after o e (ts ++ [stop])) := by
    intro e he hname
    rw [name_after] at hname
    obtain rfl := eq_of_mem_enumMachines he hname
    obtain ⟨m, hafter, hm⟩ := waits_after o ts
    rw [after_concat, hafter, ended_respond hm hstop]
    exact ⟨_, ended_passes us, rfl⟩
  rw [show ts ++ stop :: us = ts ++ [stop] ++ us by simp]
  exact (addedBy_enumMembers o).run hadds

/-! ## Lists of constants -/

/-- What waits for a constant goes to it. -/
theorem enumMembers_constant {h : Harvest} (hbare : h.bare =
    (({} : Harvest).wait c.annotations c.comments).addEnumMember o c.draft) :
    h.Clear ∧ h.members.enumMembers = [c.constant] := by
  refine ⟨⟨congrArg Harvest.annotations hbare, congrArg Harvest.comments hbare⟩, ?_⟩
  refine (congrArg (fun h => h.members.enumMembers) hbare).trans ?_
  simp [Harvest.addEnumMember, Harvest.wait, WrittenConstant.enumMember_draft]
  rfl

/-- A machine that has read no name ends nothing with the body. -/
theorem close_calm {e : Extractor} (hl : o.language.memberOrder = .typeFirst) (he : e.rank ≤ 1)
    (h : Harvest) : close o h e = h := by
  refine deliver_of_not_complete o h ?_
  cases e with
  | field m =>
      simp only [bodyEnd, FieldMachine.bodyEnd, hl]
      cases m <;> first | rfl | exact absurd he (show ¬ 3 ≤ 1 by decide)
  | method m =>
      simp only [bodyEnd, MethodMachine.bodyEnd, hl]
      cases m <;> first | rfl | exact absurd he (show ¬ 3 ≤ 1 by decide)
  | _ => exact absurd he (show ¬ 3 ≤ 1 by decide)

theorem foldl_close_calm {es : List Extractor} (hl : o.language.memberOrder = .typeFirst)
    (hes : ∀ e ∈ es, e.rank ≤ 1) (h : Harvest) : es.foldl (close o) h = h := by
  induction es with
  | nil => rfl
  | cons e es ih =>
      rw [List.foldl_cons, close_calm hl (hes e List.mem_cons_self)]
      exact ih fun e he => hes e (List.mem_cons_of_mem _ he)

/-- Without tokens there is no constant. -/
theorem run_nil (o : Owner) :
    (run o (enumMachines o.language {}) []).members.enumMembers = [] := by
  obtain ⟨l, scope⟩ := o
  cases l <;> rfl

/-- Nor is there one in front of a semicolon. -/
theorem run_semicolon (o : Owner) (us : List TokenTree) {stop : TokenTree}
    (hstop : stop.value.isSeparator ";" = true) :
    (run o (enumMachines o.language {}) (stop :: us)).members.enumMembers = [] := by
  have hadds : ∀ e ∈ enumMachines o.language {}, AddsNone o "enum member" [stop] e := by
    intro e he hname
    obtain rfl := eq_of_mem_enumMachines he hname
    have hends := head_ends (EnumMemberMachine.waits_idle o.language false) hstop
    exact ⟨_, .one hends, rfl⟩
  have hread := ((addedBy_enumMembers o).readAll hadds {}).1
  rw [← List.nil_append (stop :: us), enumMembers_behind o _ _ hstop]
  exact hread

/-- A constant that is read, at the end of a body. -/
theorem run_last (hread : c.IsRead) :
    (run o (enumMachines o.language {}) c.tokens).members.enumMembers = [c.constant] := by
  obtain ⟨m, hm, hmachines, hbare⟩ := readAll_constant hread {}
  have hrivals : ∀ h, ((rivals o.language).map fun e => after o e c.tokens).foldl (close o) h =
      h := by
    intro h
    cases hes : rivals o.language with
    | nil => rfl
    | cons e₀ es =>
        have hjava := (of_mem_rivals (hes ▸ List.mem_cons_self : e₀ ∈ rivals o.language)).1
        refine foldl_close_calm (typeFirst_of_java hjava) (fun e he => ?_) h
        obtain ⟨e', he', rfl⟩ := List.mem_map.1 (hes ▸ he)
        obtain ⟨⟨last, hpasses, hrank, -⟩, -⟩ := rivals_settle hread e' he'
        rwa [after_of_feeds hpasses]
  unfold run
  simp only [hmachines, List.foldl_append, hrivals, List.foldl_cons, List.foldl_nil,
    constant_close hm]
  have hharvest : ((readAll o (enumMachines o.language {}) {} c.tokens).2.addEnumMember o
      c.draft).bare = _ := congrArg (·.addEnumMember o c.draft) hbare
  exact (enumMembers_constant hharvest).2

/-- A constant that is read, in front of a semicolon. -/
theorem run_ended (hread : c.IsRead) (us : List TokenTree) {stop : TokenTree}
    (hstop : stop.value.isSeparator ";" = true) :
    (run o (enumMachines o.language {}) (c.tokens ++ stop :: us)).members.enumMembers =
      [c.constant] := by
  rw [enumMembers_behind o _ _ hstop]
  exact (enumMembers_constant (readAll_stopped true hread hstop {}).2).2

/-- A constant that is read, in front of others. -/
theorem run_comma (hread : c.IsRead) (us : List TokenTree) {comma : TokenTree}
    (hcomma : comma.value.isSeparator "," = true) :
    (run o (enumMachines o.language {}) (c.tokens ++ comma :: us)).members.enumMembers =
      c.constant :: (run o (enumMachines o.language {}) us).members.enumMembers := by
  obtain ⟨hmachines, hbare⟩ := readAll_stopped false hread hcomma {}
  obtain ⟨hclear, hread⟩ := enumMembers_constant hbare
  have happend := congrArg (fun h => h.members.enumMembers) (run_append hmachines hclear us)
  rw [show c.tokens ++ comma :: us = c.tokens ++ [comma] ++ us by simp]
  refine happend.trans ?_
  show (readAll o _ {} (c.tokens ++ [comma])).2.members.enumMembers ++ _ = _
  rw [hread]
  rfl

/-- Constants that are read, in front of an ending. -/
theorem run_list {cs : List (WrittenConstant o)} (hread : ∀ c ∈ cs, c.IsRead)
    (h : ConstantList o cs ts) (us : List TokenTree)
    (hnone : (run o (enumMachines o.language {}) us).members.enumMembers = [])
    (hlast : ∀ c : WrittenConstant o, c.IsRead →
      (run o (enumMachines o.language {}) (c.tokens ++ us)).members.enumMembers =
        [c.constant]) :
    (run o (enumMachines o.language {}) (ts ++ us)).members.enumMembers =
      cs.map (·.constant) := by
  induction h with
  | nil => exact hnone
  | last c => exact hlast c (hread c List.mem_cons_self)
  | @cons c comma cs ts hcomma hrest ih =>
      rw [List.append_assoc, List.cons_append, run_comma (hread c List.mem_cons_self) _ hcomma,
        ih fun c hc => hread c (List.mem_cons_of_mem _ hc), List.map_cons]

/-- Constants that are read are read from any body in which they are written. -/
theorem run_constants {cs : List (WrittenConstant o)} (hread : ∀ c ∈ cs, c.IsRead)
    (h : EnumBody o cs ts) :
    (run o (enumMachines o.language {}) ts).members.enumMembers = cs.map (·.constant) := by
  cases h with
  | constants h =>
      have hlast : ∀ c : WrittenConstant o, c.IsRead →
          (run o (enumMachines o.language {}) (c.tokens ++ [])).members.enumMembers =
            [c.constant] := by
        intro c hc
        rw [List.append_nil]
        exact run_last hc
      have hall := run_list hread h [] (run_nil o) hlast
      rwa [List.append_nil] at hall
  | @members ts rest stop hl h hstop =>
      exact run_list hread h (stop :: rest) (run_semicolon o rest hstop)
        fun c hc => run_ended hc rest hstop

/-! ## Constants whose annotations are taken -/

/-- A token at which the machine that reads constants goes on or ends one, and the others may end a
field or a method. -/
theorem read_shared {f m e e' : Extractor} {fended mended eended : List Extractor} {ft mt : Bool}
    (field? : Option (Field TypeRef)) (method? : Option (Method TypeRef)) (ht : Silent t)
    (hf : respond o t f = ⟨field .idle, fended, ft⟩)
    (hfended : ∀ h, fended.foldl (deliver o) h = h.takeField field?)
    (hm : respond o t m = ⟨method .idle, mended, mt⟩)
    (hmended : ∀ h, mended.foldl (deliver o) h = h.takeMethod method?)
    (he : respond o t e = ⟨e', eended, true⟩) (h : Harvest) :
    (read o [f, m, e, annotations .idle, comment none] h t).1 =
        [field .idle, method .idle, e', annotations .idle, comment none] ∧
      (read o [f, m, e, annotations .idle, comment none] h t).2.bare =
        eended.foldl (deliver o) ((h.bare.takeField field?).takeMethod method?) := by
  obtain ⟨hmachines, hharvest⟩ := read_respond o t [f, m, e, annotations .idle, comment none] h
  refine ⟨hmachines.trans ?_, hharvest.trans ?_⟩
  · simp [hf, hm, he, annotation_silent ht, comment_passes ht.notComment]
  · simp [hf, hm, he, annotation_silent ht, comment_passes ht.notComment, hfended, hmended]

/-- A member that ends takes what waits, and is no constant. -/
theorem taken_pending {h : Harvest} {field? : Option (Field TypeRef)}
    {method? : Option (Method TypeRef)} (hsome : field?.isSome = true ∨ method?.isSome = true) :
    ((h.takeField field?).takeMethod method?).annotations = [] ∧
      ((h.takeField field?).takeMethod method?).comments = [] ∧
      ((h.takeField field?).takeMethod method?).members.enumMembers = h.members.enumMembers := by
  cases field? with
  | some f => cases method? <;> exact ⟨rfl, rfl, rfl⟩
  | none =>
      cases method? with
      | some m => exact ⟨rfl, rfl, rfl⟩
      | none => simp at hsome

/-- The token at which another member ends takes what waits. -/
theorem readAll_robbed (hjava : o.language = .java) {arguments? body? : Option TokenTree}
    {style : o.language = .java} {isArguments : ∀ b ∈ arguments?, b.value.isBlock '(' = true}
    {isBody : ∀ b ∈ body?, b.value.isBlock '\x7b' = true}
    (htail : c.tail = .parts arguments? body? style isArguments isBody) (hread : ¬ c.IsRead)
    {stop : TokenTree}
    (hstop : body? = some stop ∨ body? = none ∧ stop.value.isSeparator ";" = true)
    {e' : Extractor} {ended : List Extractor}
    (he : respond o stop (enumMember ⟨.afterName c.draft, false⟩) = ⟨e', ended, true⟩) :
    ∃ h : Harvest, h.annotations = [] ∧ h.comments = [] ∧ h.members.enumMembers = [] ∧
      (readAll o (enumMachines o.language {}) {} (c.named ++ arguments?.toList ++ [stop])).1 =
        [field .idle, method .idle, e', annotations .idle, comment none] ∧
      (readAll o (enumMachines o.language {}) {}
          (c.named ++ arguments?.toList ++ [stop])).2.bare = ended.foldl (deliver o) h := by
  obtain ⟨field?, method?, ⟨f, fended, hfpasses, hfstop, hfended⟩,
    ⟨m, mended, hmpasses, hmstop, hmended⟩, hsome⟩ := rivals_take hjava htail hread hstop
  have hdraft : c.draft = { name := c.name.text, arguments? } := by
    rw [WrittenConstant.draft, htail]
    rfl
  have hkeeps := (constant_named c).append
    (constant_arguments? (d := { name := c.name.text }) isArguments rfl)
  have hsilent : ∀ t ∈ arguments?.toList, Silent t := fun t ht =>
    silent_of_isBlock (isArguments t (Option.mem_toList.1 ht)) (by decide)
  have hrivals : ∀ e ∈ rivals o.language,
      ∃ e', Passes o e (c.named ++ arguments?.toList) e' := by
    intro e he
    rcases (of_mem_rivals he).2 with rfl | rfl
    · exact ⟨_, hfpasses⟩
    · exact ⟨_, hmpasses⟩
  obtain ⟨hfront, hbare⟩ := readAll_named hrivals hkeeps hsilent {}
  have hmachines : rivals o.language = [field .idle, method .idle] := by
    rw [hjava]
    rfl
  rw [hmachines, List.map_cons, List.map_cons, List.map_nil, after_of_feeds hfpasses,
    after_of_feeds hmpasses, ← hdraft] at hfront
  have hstopSilent : Silent stop := by
    rcases hstop with h | h
    · exact silent_of_isBlock (isBody stop h) (by decide)
    · exact silent_of_isBody (Bool.or_eq_true_iff.2 (Or.inl h.2))
  obtain ⟨hnext, hgain⟩ := read_shared field? method? hstopSilent hfstop hfended hmstop hmended he
    (readAll o (enumMachines o.language {}) {} (c.named ++ arguments?.toList)).2
  obtain ⟨hannotations, hcomments, henumMembers⟩ := taken_pending (h := (({} : Harvest).bare.wait
    c.annotations c.comments)) hsome
  refine ⟨_, hannotations, hcomments, henumMembers.trans rfl, ?_⟩
  rw [readAll_append, hfront]
  exact ⟨hnext, hgain.trans (by rw [hbare])⟩

/-- A constant whose annotations are taken is read without them. -/
theorem enumMembers_robbed (hjava : o.language = .java) (hread : ¬ c.IsRead) {stop : TokenTree}
    (hstop : stop.value.isSeparator ";" = true) :
    (readAll o (enumMachines o.language {}) {} (c.tokens ++ [stop])).2.members.enumMembers =
      [{ c.constant with annotations := [], comments := [] }] := by
  have hl := typeFirst_of_java hjava
  have hends := constant_stop true (Or.inl rfl : ReadTo c.draft _) hstop (o := o)
  have hgain : ∀ h : Harvest, h.annotations = [] → h.comments = [] →
      h.members.enumMembers = [] → (h.addEnumMember o c.draft).members.enumMembers =
        [{ c.constant with annotations := [], comments := [] }] := by
    intro h hannotations hcomments henumMembers
    rw [Harvest.addEnumMember, hannotations, hcomments, henumMembers,
      WrittenConstant.enumMember_draft]
    rfl
  cases htail : c.tail with
  | value assigned? style isEquals isValue => exact absurd hjava style
  | parts arguments? body? style isArguments isBody =>
      rw [WrittenConstant.tokens, htail]
      cases body? with
      | none =>
          obtain ⟨h, hannotations, hcomments, henumMembers, -, hbare⟩ :=
            readAll_robbed hjava htail hread (Or.inr ⟨rfl, hstop⟩) hends
          rw [ConstantTail.tokens, Option.toList_none, List.append_nil]
          exact (congrArg (fun h => h.members.enumMembers) hbare).trans
            (hgain h hannotations hcomments henumMembers)
      | some b =>
          have hkeeps := constant_body (o := o) (d := c.draft) (isBody b rfl)
          obtain ⟨h, hannotations, hcomments, henumMembers, hmachines, hbare⟩ :=
            readAll_robbed hjava htail hread (Or.inl rfl) hkeeps
          have hfield := separator_leaves (e := field .idle) hl (Nat.zero_le 1) hstop (by decide)
          have hmethod := separator_leaves (e := method .idle) hl (Nat.zero_le 1) hstop (by decide)
          have hlast : ∀ es h, readAll o es h [stop] = read o es h stop := fun _ _ => rfl
          rw [show c.named ++ ConstantTail.tokens (.parts arguments? (some b) style isArguments
            isBody) ++ [stop] = c.named ++ arguments?.toList ++ [b] ++ [stop] by
              simp [ConstantTail.tokens], readAll_append, hmachines, hlast]
          have hgained := (read_shared none none (silent_of_isSeparator hstop (by decide)) hfield
            (fun _ => rfl) hmethod (fun _ => rfl) hends
            (readAll o (enumMachines o.language {}) {}
              (c.named ++ arguments?.toList ++ [b])).2).2
          rw [hbare] at hgained
          exact (congrArg (fun h => h.members.enumMembers) hgained).trans
            (hgain h hannotations hcomments henumMembers)

end Extractor

/-! ## Annotations in front of a constant -/

/-- Without annotations, nothing is kept of them. -/
theorem Remnant.ofLeads_comments {o : Owner} {leads : List (WrittenLead o.language)}
    (h : leads.flatMap (·.annotations) = []) : ofLeads o leads = nothing := by
  have hafter : ∀ lead ∈ leads, ∀ x, after o x lead = x := by
    intro lead hlead x
    have hnone := List.flatMap_eq_nil_iff.1 h lead hlead
    cases lead with
    | comment token isComment => rfl
    | mark mark =>
        cases mark with
        | brackets block hstyle isBlock found => exact absurd hnone found
        | sign start name arguments? hstyle hstart hname hblock => cases hnone
  unfold ofLeads
  clear h
  induction leads with
  | nil => rfl
  | cons lead leads ih =>
      rw [List.foldl_cons, hafter lead List.mem_cons_self]
      exact ih fun lead hlead => hafter lead (List.mem_cons_of_mem _ hlead)

/-- A constant without annotations is read. -/
theorem WrittenConstant.isRead_of_annotations {o : Owner} {c : WrittenConstant o}
    (h : c.annotations = []) : c.IsRead := by
  have hx : c.remnant = .nothing := Remnant.ofLeads_comments h
  constructor
  · intro r hr
    rw [hx] at hr
    cases hr
  · intro _ r ps hr
    rw [hx] at hr
    cases hr

/-- Only in Java other members take what stands in front of a constant. -/
theorem WrittenConstant.isRead_of_ne_java {o : Owner} (hl : o.language ≠ .java)
    (c : WrittenConstant o) : c.IsRead := by
  constructor
  · intro r hr
    cases c.tail with
    | value assigned? style isEquals isValue => exact trivial
    | parts arguments? body? style isArguments isBody => exact absurd style hl
  · intro h
    exact absurd h hl

/-! ## Bodies -/

namespace Members

variable {o : Owner}

/-- Exactly the constants that are written in a body are read from it. -/
def ConstantsExact (cs : List (WrittenConstant o)) : Prop :=
  ∀ body, EnumBody o cs body →
    (ofBody o .enumLike body).members.enumMembers = cs.map (·.constant)

theorem enumMembers_ofBody (o : Owner) (body : List TokenTree) :
    (ofBody o .enumLike body).members.enumMembers =
      (Extractor.run o (Extractor.enumMachines o.language {}) body).members.enumMembers := by
  rw [ofBody, Extractor.extractors_enumLike]

/-- Bodies are read exactly as they are written, whatever is left out of them, if and only if each
of their constants keeps its annotations and comments.  No token behind a semicolon yields a
constant. -/
theorem constants_iff (cs : List (WrittenConstant o)) :
    ((∀ es, es.Sublist cs → ConstantsExact es) ↔ ∀ c ∈ cs, c.IsRead) ∧
      ∀ before after stop, stop.value.isSeparator ";" = true →
        (ofBody o .enumLike (before ++ stop :: after)).members.enumMembers =
          (ofBody o .enumLike (before ++ [stop])).members.enumMembers := by
  refine ⟨⟨fun h c hc => ?_, fun h es hes body hbody => ?_⟩, fun before after stop hstop => ?_⟩
  · by_contra hread
    have hjava : o.language = .java := by
      by_contra hl
      exact hread (WrittenConstant.isRead_of_ne_java hl c)
    have hexact := h [c] (List.singleton_sublist.2 hc) (c.tokens ++ [.bare .separator ";"])
      (.members hjava (.last c) rfl)
    rw [enumMembers_ofBody, Extractor.enumMembers_behind o _ _ rfl,
      Extractor.enumMembers_robbed hjava hread rfl] at hexact
    have hannotations := congrArg EnumMember.annotations (List.cons.inj hexact).1
    exact hread (WrittenConstant.isRead_of_annotations hannotations.symm)
  · rw [enumMembers_ofBody]
    exact Extractor.run_constants (fun c hc => h c (hes.subset hc)) hbody
  · rw [enumMembers_ofBody, enumMembers_ofBody, Extractor.enumMembers_behind o _ _ hstop,
      Extractor.enumMembers_behind o _ _ hstop]

/-- A constant of the Java enumeration `E` without a body. -/
def javaConstant (leads : List (WrittenLead .java)) {name : TokenTree} {text : String}
    (hname : name.kind = .identifier ∧ name.text = text) (hword : Text.isWord text = true)
    (howner : text ≠ "E") (arguments? : Option TokenTree)
    (harguments : ∀ b ∈ arguments?, b.value.isBlock '(' = true) :
    WrittenConstant ⟨.java, ["E"]⟩ where
  leads
  name
  tail := .parts arguments? none rfl harguments (by simp)
  isName := ⟨hname.1, hname.2 ▸ hword⟩
  notOwner := by
    rintro - h
    exact howner (hname.2.symm.trans (Option.some.inj h).symm)

/-- Two constants, the first of them behind an annotation and with arguments, in front of a
field. -/
theorem constants_iff_arguments : ∃ c d : WrittenConstant ⟨.java, ["E"]⟩, ∃ before stop after,
    tokensOf .java "@A Foo(1), Bar; int x;" = before ++ stop :: after ∧
      EnumBody _ [c, d] (before ++ stop :: after) ∧ c.annotations = [⟨"A", []⟩] ∧
      c.tail.value?.isSome = true ∧ stop.value.isSeparator ";" = true ∧
      (∀ e ∈ [c, d], e.IsRead) ∧
      (ofBody ⟨.java, ["E"]⟩ .enumLike (before ++ stop :: after)).members.enumMembers =
        [c.constant, d.constant] ∧
      (ofBody ⟨.java, ["E"]⟩ .enumLike (before ++ stop :: after)).members.enumMembers =
        (ofBody ⟨.java, ["E"]⟩ .enumLike (before ++ [stop])).members.enumMembers := by
  have hwords : (tokensOf .java "@A Foo(1), Bar; int x;").map (fun t => (t.kind, t.text)) =
      [(.separator, "@"), (.identifier, "A"), (.identifier, "Foo"), (.block, "(1)"),
        (.separator, ","), (.identifier, "Bar"), (.separator, ";"), (.keyword, "int"),
        (.identifier, "x"), (.separator, ";")] := by
    decide +kernel
  simp only [List.map_eq_cons_iff, List.map_eq_nil_iff, Prod.mk.injEq] at hwords
  obtain ⟨start, _, htokens, hstart, first, _, rfl, hfirst, name, _, rfl, hname, arguments, _, rfl,
    harguments, comma, _, rfl, hcomma, next, _, rfl, hnext, stop, after, rfl, hstop, -⟩ := hwords
  have hblock : arguments.value.isBlock '(' = true :=
    Token.isBlock_of_text harguments (by decide)
  let c := javaConstant
    [.mark (.sign start first none rfl (isSeparator_of hstart) hfirst.1 (by simp))] hname
    (by decide) (by decide) (some arguments) fun b hb => Option.some.inj hb ▸ hblock
  let d := javaConstant [] hnext (by decide) (by decide) none (by simp)
  have hread : ∀ e ∈ [c, d], e.IsRead := by
    have hc : c.IsRead := by
      constructor
      · intro r hr
        cases hr
      · intro _ r ps hr
        cases hr
    have hd : d.IsRead := WrittenConstant.isRead_of_annotations rfl
    simpa using ⟨hc, hd⟩
  have hbody : EnumBody ⟨.java, ["E"]⟩ [c, d] (([start, first, name, arguments] ++
      comma :: [next]) ++ stop :: after) :=
    .members rfl (.cons c (isSeparator_of hcomma) (.last d)) (isSeparator_of hstop)
  have hexact := (constants_iff [c, d]).1.2 hread _ (List.Sublist.refl _) _ hbody
  have hend := (constants_iff [c, d]).2 ([start, first, name, arguments] ++ comma :: [next]) after
    stop (isSeparator_of hstop)
  refine ⟨c, d, _, stop, after, htokens, hbody, ?_, rfl, isSeparator_of hstop, hread, hexact,
    hend⟩
  show [(⟨first.text, []⟩ : Annotation)] = _
  rw [hfirst.2]

/-- Behind two annotations without arguments, the constant loses them. -/
theorem not_constantsExact_annotations : ∃ c : WrittenConstant ⟨.java, ["E"]⟩,
    EnumBody _ [c] (tokensOf .java "@A @B Foo;") ∧ ¬ ConstantsExact [c] := by
  have hwords : (tokensOf .java "@A @B Foo;").map (fun t => (t.kind, t.text)) =
      [(.separator, "@"), (.identifier, "A"), (.separator, "@"), (.identifier, "B"),
        (.identifier, "Foo"), (.separator, ";")] := by decide +kernel
  have hlost : (ofBody ⟨.java, ["E"]⟩ .enumLike
      (tokensOf .java "@A @B Foo;")).members.enumMembers.map (·.annotations.length) = [0] := by
    decide +kernel
  simp only [List.map_eq_cons_iff, List.map_eq_nil_iff, Prod.mk.injEq] at hwords
  obtain ⟨start, _, htokens, hstart, first, _, rfl, hfirst, next, _, rfl, hnext, second, _, rfl,
    hsecond, name, _, rfl, hname, stop, _, rfl, hstop, rfl⟩ := hwords
  let c := javaConstant [
      .mark (.sign start first none rfl (isSeparator_of hstart) hfirst.1 (by simp)),
      .mark (.sign next second none rfl (isSeparator_of hnext) hsecond.1 (by simp))]
    hname (by decide) (by decide) none (by simp)
  have hbody : EnumBody ⟨.java, ["E"]⟩ [c] (tokensOf .java "@A @B Foo;") := by
    rw [htokens]
    exact .members rfl (.last c) (isSeparator_of hstop)
  refine ⟨c, hbody, fun hexact => ?_⟩
  rw [hexact _ hbody] at hlost
  cases hlost

end Members

end Outline

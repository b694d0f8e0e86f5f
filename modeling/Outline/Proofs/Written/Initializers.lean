import Mathlib.Algebra.Order.BigOperators.Group.List
import Mathlib.Algebra.Order.Group.Nat
import Outline.Proofs.Written.Between
import Outline.Proofs.Written.Exact

/-!
# Fields with initializers

While the machine that reads fields passes over an initializer, the other machines read it as they
read everything else.  A member that they have begun in it hides what follows only if it is still
open behind the field.

* `InitializedField.LeavesNothing` — nothing that is begun in the initializer is open behind it.
* `InitializedField.leavesNothing_of_plain` — initializers without angle brackets and at signs of
  their own leave nothing open.
* `Members.kept_iff_leavesNothing` — the field hides no member of the rest of the body if and only
  if nothing is left open.
-/

namespace Outline

/-- A field with an initializer. -/
structure InitializedField (l : Language) where
  /-- The type. -/
  type : WrittenType l false
  /-- The name. -/
  name : TokenTree
  /-- The equals sign. -/
  equals : TokenTree
  /-- The tokens of the initializer. -/
  value : List TokenTree
  /-- The semicolon. -/
  stop : TokenTree
  /-- The name is an identifier and a single word. -/
  isName : name.kind = .identifier ∧ FieldMachine.isPlain name.text = true
  /-- The initializer is behind an equals sign. -/
  isEquals : equals.value.isOperator "=" = true
  /-- It has tokens. -/
  nonempty : value ≠ []
  /-- It has no semicolon of its own. -/
  inside : ∀ t ∈ value, t.value.isSeparator ";" = false
  /-- The field ends with a semicolon. -/
  stops : stop.value.isSeparator ";" = true

namespace InitializedField

open Extractor (after memberMachines respond field method annotations comment)

/-- The tokens in front of the semicolon. -/
def front {l : Language} (f : InitializedField l) : List TokenTree :=
  f.type.tokens ++ f.name :: f.equals :: f.value

/-- The tokens. -/
def tokens {l : Language} (f : InitializedField l) : List TokenTree := f.front ++ [f.stop]

/-- Nothing that is begun in the initializer is open behind the field. -/
structure LeavesNothing (o : Owner) (f : InitializedField o.language) : Prop where
  /-- No list of type parameters is being read. -/
  list : ∀ modifiers list,
    after o (method .idle) f.tokens ≠ method (.typeParamList modifiers list)
  /-- The initializer does not end with the name of an annotation. -/
  annotation : ∀ n, after o (annotations .idle) f.front ≠ annotations (.arguments n)

variable {o : Owner}

/-! ## The machines behind the field -/

/-- The machine that reads fields passes over an initializer. -/
theorem passes_initializer (hl : o.language.memberOrder = .typeFirst) {ts : List TokenTree}
    (hts : ∀ t ∈ ts, t.value.isSeparator ";" = false) (d : FieldDraft) :
    ∃ d', Extractor.Passes o (field (.initializer d)) ts (field (.initializer d')) := by
  induction ts generalizing d with
  | nil => exact ⟨d, .nil _⟩
  | cons t ts ih =>
      have hts' : ∀ t ∈ ts, t.value.isSeparator ";" = false :=
        fun t ht => hts t (List.mem_cons_of_mem _ ht)
      by_cases ht : t.kind = .comment
      · obtain ⟨d', hrest⟩ := ih hts' d
        have hleaves := Extractor.comment_leaves (o := o) (e := field (.initializer d)) ht
          (Or.inl ⟨_, rfl⟩) rfl rfl
        exact ⟨d', .cons hleaves hrest⟩
      · have haccept : FieldMachine.acceptTypeFirst o.language (.initializer d) t.value =
            .take (.initializer d) := by
          simp [FieldMachine.acceptTypeFirst, hts t List.mem_cons_self]
        obtain ⟨d', hrest⟩ := ih hts' { d with line := t.span.last.line }
        exact ⟨d', .cons (Extractor.field_takes hl ht haccept rfl rfl) hrest⟩

/-- It reads the field up to the semicolon. -/
theorem field_front (hl : o.language.memberOrder = .typeFirst) (f : InitializedField o.language) :
    ∃ d, Extractor.Passes o (field .idle) f.front (field (.initializer d)) := by
  obtain ⟨m, htype, hm⟩ := Extractor.field_written_type hl f.type []
  obtain ⟨line, hname⟩ := Extractor.field_name hl hm f.isName.1 f.isName.2
  have hkind : f.equals.kind = .operator := Token.kind_of_isOperator f.isEquals
  have hequals : ∀ d, FieldMachine.acceptTypeFirst o.language (.afterName d) f.equals.value =
      .take (.initializer d) := by
    intro d
    have hsep : ∀ sep, f.equals.value.isSeparator sep = false :=
      Token.isSeparator_eq_false (by show f.equals.kind ≠ _; rw [hkind]; decide)
    simp [FieldMachine.acceptTypeFirst, FieldMachine.isEnd, hsep, f.isEquals]
  have hmark := Extractor.field_takes hl (by rw [hkind]; decide)
    (hequals { modifiers := [], type? := some f.type.ref, name := f.name.text, line }) rfl rfl
  obtain ⟨d, hvalue⟩ := passes_initializer (o := o) hl f.inside _
  exact ⟨d, htype.append (.cons hname (.cons hmark hvalue))⟩

/-- The semicolon ends the field. -/
theorem field_semicolon (hl : o.language.memberOrder = .typeFirst)
    (f : InitializedField o.language) :
    ∃ d, respond o f.stop (after o (field .idle) f.front) =
      ⟨field .idle, [field (.complete d)], true⟩ := by
  obtain ⟨d, hfront⟩ := field_front hl f
  have haccept : FieldMachine.acceptTypeFirst o.language (.initializer d) f.stop.value =
      .take (.complete d) := by
    simp [FieldMachine.acceptTypeFirst, f.stops]
  rw [Extractor.after_of_feeds hfront]
  exact ⟨_, Extractor.field_ends hl (Extractor.kind_ne_of_isSeparator f.stops) haccept⟩

theorem onlySemicolon_stop {l : Language} (f : InitializedField l) :
    Extractor.OnlySemicolon f.stop := Extractor.onlySemicolon f.stops

/-- Behind the field the machine that reads methods is idle or reads a list of type parameters. -/
theorem method_tokens (hl : o.language.memberOrder = .typeFirst) (f : InitializedField o.language) :
    after o (method .idle) f.tokens = method .idle ∨
      ∃ modifiers list,
        after o (method .idle) f.tokens = method (.typeParamList modifiers list) := by
  obtain ⟨m, hm, hbetween⟩ := Extractor.method_after o f.front
  rw [tokens, Extractor.after_concat, hm]
  by_cases hlist : ∃ modifiers list, m = .typeParamList modifiers list
  · obtain ⟨modifiers, list, rfl⟩ := hlist
    have hstop : ∀ t ∈ [f.stop], t.kind ≠ .operator := by
      intro t ht
      rw [List.mem_singleton.1 ht, f.onlySemicolon_stop.kind]
      decide
    obtain ⟨list', hpasses⟩ := Extractor.method_listed hl hstop modifiers
      (hbetween.waits.listed list rfl)
    exact Or.inr ⟨modifiers, list', Extractor.after_of_feeds hpasses⟩
  · refine Or.inl (Extractor.method_semicolon hl hbetween f.stops ?_)
    exact fun modifiers list h => hlist ⟨modifiers, list, h⟩

/-- Behind a member nothing waits, nor does anything behind the methods that end with it. -/
theorem pending_foldl_methods {es : List Extractor} (hes : ∀ e ∈ es, e.name = "method")
    {h : Harvest} (hh : h.annotations = [] ∧ h.comments = []) :
    (es.foldl (Extractor.deliver o) h).annotations = [] ∧
      (es.foldl (Extractor.deliver o) h).comments = [] := by
  induction es generalizing h with
  | nil => exact hh
  | cons e es ih =>
      refine ih (fun e he => hes e (List.mem_cons_of_mem _ he)) ?_
      have hname := hes e List.mem_cons_self
      cases e with
      | method m =>
          cases m with
          | complete d => exact ⟨rfl, rfl⟩
          | _ => exact hh
      | _ => exact absurd hname (by simp [Extractor.name])

/-- At the semicolon nothing waits but an annotation whose name ends the initializer. -/
theorem pending_tokens (hl : o.language.memberOrder = .typeFirst) (f : InitializedField o.language)
    {a : AnnotationMachine} (ha : after o (annotations .idle) f.front = annotations a) :
    (Extractor.readAll o memberMachines {} f.tokens).2.annotations = Extractor.unfinished a ∧
      (Extractor.readAll o memberMachines {} f.tokens).2.comments = [] := by
  obtain ⟨d, hfield⟩ := field_semicolon hl f
  obtain ⟨m, hm, -⟩ := Extractor.method_after o f.front
  obtain ⟨a', ha', hopen⟩ := Extractor.annotations_after o f.front
  obtain rfl : a = a' := Extractor.annotations.inj (ha.symm.trans ha')
  obtain ⟨ended, taken, hannotation, hended⟩ := Extractor.annotation_semicolon hopen f.stops
  have hcomment := Extractor.comment_passes (o := o) f.onlySemicolon_stop.notComment
  have hblock := f.onlySemicolon_stop.notBlock '\x7b'
  have hmachines : (Extractor.readAll o memberMachines {} f.front).1 =
      [after o (field .idle) f.front, method m, annotations a, comment none] := by
    rw [Extractor.readAll_after, memberMachines, List.map_cons, List.map_cons, List.map_cons,
      List.map_singleton, hm, ha, Extractor.comment_after]
  obtain ⟨h, hread⟩ : ∃ h, Extractor.readAll o memberMachines {} f.tokens =
      Extractor.read o [after o (field .idle) f.front, method m, annotations a, comment none] h
        f.stop := by
    rw [tokens, Extractor.readAll_append, hmachines]
    exact ⟨_, rfl⟩
  -- the field takes what waits, and the methods that end with it leave nothing either
  have hpending := pending_foldl_methods (o := o) (Extractor.name_respond o f.stop (method m)).2
    (h := [field (.complete d)].foldl (Extractor.deliver o) h.bare) ⟨rfl, rfl⟩
  have hbare := (Extractor.read_respond o f.stop
    [after o (field .idle) f.front, method m, annotations a, comment none] h).2
  simp only [List.flatMap_cons, List.flatMap_nil, hfield, hannotation, hcomment, hblock,
    Bool.and_false, Bool.false_eq_true, if_false, List.append_nil, List.foldl_append,
    hended] at hbare
  rw [hread]
  refine ⟨(congrArg Harvest.annotations hbare).trans ?_,
    (congrArg Harvest.comments hbare).trans ?_⟩
  · exact (congrArg (· ++ _) hpending.1).trans (List.nil_append _)
  · exact congrArg (· ++ _) hpending.2

/-! ## The rest of the body -/

/-- If the machine that reads methods is idle behind the field, all machines are. -/
theorem readAll_tokens (hl : o.language.memberOrder = .typeFirst) {f : InitializedField o.language}
    (hmethod : after o (method .idle) f.tokens = method .idle) :
    (Extractor.readAll o memberMachines {} f.tokens).1 = memberMachines := by
  obtain ⟨d, hfield⟩ := field_semicolon hl f
  obtain ⟨a, ha, hopen⟩ := Extractor.annotations_after o f.front
  obtain ⟨ended, taken, hannotation, -⟩ := Extractor.annotation_semicolon hopen f.stops
  have hfield' : after o (field .idle) f.tokens = field .idle := by
    rw [tokens, Extractor.after_concat, hfield]
  have hannotation' : after o (annotations .idle) f.tokens = annotations .idle := by
    rw [tokens, Extractor.after_concat, ha, hannotation]
  rw [Extractor.readAll_after, memberMachines, List.map_cons, List.map_cons, List.map_cons,
    List.map_singleton, hfield', hmethod, hannotation', Extractor.comment_after]

theorem LeavesNothing.method_idle (hl : o.language.memberOrder = .typeFirst)
    {f : InitializedField o.language} (h : f.LeavesNothing o) :
    after o (method .idle) f.tokens = method .idle := by
  rcases method_tokens hl f with hidle | ⟨modifiers, list, hlist⟩
  · exact hidle
  · exact absurd hlist (h.list modifiers list)

theorem LeavesNothing.pending (hl : o.language.memberOrder = .typeFirst)
    {f : InitializedField o.language} (h : f.LeavesNothing o) :
    (Extractor.readAll o memberMachines {} f.tokens).2.annotations = [] ∧
      (Extractor.readAll o memberMachines {} f.tokens).2.comments = [] := by
  obtain ⟨a, ha, -⟩ := Extractor.annotations_after o f.front
  obtain ⟨hannotations, hcomments⟩ := pending_tokens hl f ha
  refine ⟨hannotations.trans ?_, hcomments⟩
  cases a with
  | arguments n => exact absurd ha (h.annotation n)
  | _ => rfl

/-- The fields and methods that are read from a body are also read, in their order, if the field
stands in front of it. -/
def Kept (o : Owner) (f : InitializedField o.language) (body : List TokenTree) : Prop :=
  (Members.ofBody o .classLike body).members.fields.Sublist
      (Members.ofBody o .classLike (f.tokens ++ body)).members.fields ∧
    (Members.ofBody o .classLike body).members.methods.Sublist
      (Members.ofBody o .classLike (f.tokens ++ body)).members.methods

theorem members_ofBody (o : Owner) (body : List TokenTree) :
    (Members.ofBody o .classLike body).members =
      (Extractor.run o memberMachines body).members := rfl

/-- A field that leaves nothing open hides nothing. -/
theorem LeavesNothing.kept (hl : o.language.memberOrder = .typeFirst)
    {f : InitializedField o.language} (h : f.LeavesNothing o) (body : List TokenTree) :
    Kept o f body := by
  obtain ⟨hannotations, hcomments⟩ := h.pending hl
  rw [Kept, members_ofBody, members_ofBody,
    Extractor.run_append (readAll_tokens hl (h.method_idle hl)) ⟨hannotations, hcomments⟩]
  exact ⟨List.sublist_append_right _ _, List.sublist_append_right _ _⟩

/-- A token that opens neither a list of type parameters nor an annotation. -/
structure OpensNothing (t : TokenTree) : Prop where
  /-- It is no angle bracket. -/
  notAngle : t.value.isOperator "<" = false
  /-- It is no at sign. -/
  notSign : t.value.isSeparator "@" = false

theorem OpensNothing.of_word {t : TokenTree} (h : t.kind = .keyword ∨ t.kind = .identifier) :
    OpensNothing t :=
  have ht := Extractor.ordinary_of_kind (h.imp_right Or.inl)
  ⟨ht.notAngle, ht.notSign⟩

theorem OpensNothing.of_operator {t : TokenTree} {op : String} (h : t.value.isOperator op = true)
    (hop : op ≠ "<") : OpensNothing t :=
  have ht := Extractor.ordinary_of_isOperator h hop
  ⟨ht.notAngle, ht.notSign⟩

/-- Initializers without angle brackets and at signs of their own leave nothing open. -/
theorem leavesNothing_of_plain (hl : o.language.memberOrder = .typeFirst)
    {f : InitializedField o.language} (hvalue : ∀ t ∈ f.value, OpensNothing t) :
    f.LeavesNothing o := by
  have hfront : ∀ t ∈ f.front, OpensNothing t := by
    intro t ht
    simp only [front, WrittenType.tokens, List.cons_append, List.mem_cons, List.mem_append,
      Option.mem_toList] at ht
    rcases ht with rfl | ht | rfl | rfl | ht
    · exact .of_word (TypeMachine.word_of_starts hl f.type.starts)
    · exact .of_operator (f.type.marked t ht).2 (by decide)
    · exact .of_word (Or.inr f.isName.1)
    · exact .of_operator f.isEquals (by decide)
    · exact hvalue t ht
  refine ⟨fun modifiers list h => ?_, fun n h => ?_⟩
  · obtain ⟨t, ht, hopen⟩ := Extractor.method_after_list h
    rcases List.mem_append.1 ht with ht | ht
    · rw [(hfront t ht).notAngle] at hopen
      cases hopen
    · rw [List.mem_singleton.1 ht, f.onlySemicolon_stop.notOperator] at hopen
      cases hopen
  · obtain ⟨-, t, ht, hsign⟩ := Extractor.sign_of_after h rfl
    rw [(hfront t ht).notSign] at hsign
    cases hsign

end InitializedField

/-! ## Members that are hidden -/

/-- There is always another word. -/
theorem Text.exists_word (names : List String) : ∃ s, isWord s = true ∧ s ∉ names := by
  refine ⟨String.ofList (List.replicate ((names.map (·.length)).sum + 1) 'a'), ?_, ?_⟩
  · have ha : isWordChar 'a' = true := by decide
    simp [isWord, ha]
  · intro h
    have hle := List.le_sum_of_mem (List.mem_map_of_mem (f := (·.length)) h)
    rw [String.length_ofList, List.length_replicate] at hle
    omega

/-- A type that is written as a word. -/
def WrittenType.plain (l : Language) (allowVoid : Bool) : WrittenType l allowVoid where
  word := .bare .identifier "T"
  named := .simple "T"
  starts := rfl
  parsed := TypeRef.parse_word (by decide)
  marked := by simp

/-- A field with nothing but a type and a name. -/
def WrittenField.plain (l : Language) {name : String} (h : Text.isWord name = true) :
    WrittenField l where
  type := .plain _ _
  name := .bare .identifier name
  stop := .bare .separator ";"
  modified := by simp
  isName := ⟨rfl, h⟩
  stops := Or.inl (by decide)

/-- A method with nothing but a type and a name. -/
def WrittenMethod.plain (o : Owner) {name : String} (h : Text.isWord name = true) :
    WrittenMethod o where
  result? := some (.plain _ _)
  name := .bare .identifier name
  params := {
    block := .bare .block "()"
    list := []
    isBlock := by decide
    holds := .nil
    modified := trivial }
  stop := .bare .separator ";"
  modified := by simp
  isName := ⟨rfl, h⟩
  owned := by simp
  isClause := .none
  stops := by decide

namespace Declared

variable {o : Owner}

/-- What is read from a single declaration. -/
theorem members_tokens (hl : o.language.memberOrder = .typeFirst) {d : Declared o} (h : d.IsRead) :
    (Members.ofBody o .classLike d.tokens).members.fields = d.field?.toList ∧
      (Members.ofBody o .classLike d.tokens).members.methods = d.method?.toList := by
  have hkind : DeclarationKind.classLike = .classLike ∨
      DeclarationKind.classLike = .interfaceLike := Or.inl rfl
  have hmembers := Members.ofBody_written hl hkind [d]
  rw [List.flatMap_singleton, List.foldl_cons, List.foldl_nil, gain_of_isRead h] at hmembers
  rw [hmembers]
  exact ⟨List.nil_append _, List.nil_append _⟩

end Declared

namespace InitializedField

open Extractor (after memberMachines field method annotations comment)

variable {o : Owner}

/-- A list of type parameters that is open behind the field hides a method. -/
theorem not_kept_of_list (hl : o.language.memberOrder = .typeFirst)
    {f : InitializedField o.language} {modifiers : List String} {list : TypeParamList}
    (h : after o (method .idle) f.tokens = method (.typeParamList modifiers list)) :
    ∃ body, ¬ Kept o f body := by
  obtain ⟨m, hm, hbetween⟩ := Extractor.method_after o f.tokens
  have hstate : m = .typeParamList modifiers list := Extractor.method.inj (hm.symm.trans h)
  have hlist := hbetween.waits.listed list (hstate ▸ rfl)
  let read := (Extractor.readAll o memberMachines {} f.tokens).2.members.methods
  obtain ⟨s, hword, hfresh⟩ := Text.exists_word (read.map (·.name))
  let d : Declared o := { body := .method (.plain o hword) }
  have htokens : ∀ t ∈ d.tokens, t.kind ≠ .operator := by
    show ∀ t ∈ [TokenTree.bare .identifier "T", .bare .identifier s, .bare .block "()",
      .bare .separator ";"], t.kind ≠ .operator
    simp
  obtain ⟨list', hpasses⟩ := Extractor.method_listed hl htokens modifiers hlist
  have hadds : ∀ e ∈ memberMachines,
      Extractor.AddsNone o "method" d.tokens (after o e f.tokens) := by
    intro e he hname
    rw [Extractor.name_after] at hname
    obtain rfl : e = method .idle := by
      simp only [memberMachines, List.mem_cons, List.not_mem_nil, or_false] at he
      rcases he with rfl | rfl | rfl | rfl <;> first | rfl | exact absurd hname (by decide)
    rw [h]
    refine ⟨_, hpasses, ?_⟩
    simp [Extractor.bodyEnd, MethodMachine.bodyEnd, hl, Extractor.isComplete,
      MethodMachine.isComplete]
  refine ⟨d.tokens, fun hkept => ?_⟩
  have hmethods := hkept.2
  rw [members_ofBody _ (f.tokens ++ _), (Extractor.addedBy_methods o).run hadds,
    (Declared.members_tokens (d := d) hl ⟨rfl, rfl⟩).2] at hmethods
  have hmem := List.singleton_sublist.1 hmethods
  exact hfresh (List.mem_map_of_mem (f := (·.name)) hmem)

/-- An annotation that is open in front of the semicolon is taken for one of the next member. -/
theorem not_kept_of_annotation (hl : o.language.memberOrder = .typeFirst)
    {f : InitializedField o.language} (hidle : after o (method .idle) f.tokens = method .idle)
    {n : String} (h : after o (annotations .idle) f.front = annotations (.arguments n)) :
    ∃ body, ¬ Kept o f body := by
  have hmachines := readAll_tokens hl hidle
  have hpending := (pending_tokens hl f h).1
  generalize hread : Extractor.readAll o memberMachines {} f.tokens = r at hmachines hpending
  obtain ⟨s, hword, hfresh⟩ := Text.exists_word (r.2.members.fields.map (·.name))
  let w : WrittenField o.language := .plain _ hword
  let d : Declared o := { body := .field w }
  -- the field of the body is read with the annotation
  obtain ⟨hidle', hgain⟩ := Extractor.readAll_declared hl d r.2
  have happend : Extractor.readAll o memberMachines {} (f.tokens ++ d.tokens) =
      Extractor.readAll o memberMachines r.2 d.tokens := by
    rw [Extractor.readAll_append, hread, hmachines]
  have hmembers := Extractor.run_members hl (happend ▸ hidle')
  have hboth : (Members.ofBody o .classLike (f.tokens ++ d.tokens)).members.fields =
      r.2.members.fields ++
        [{ w.field o with annotations := r.2.annotations, comments := r.2.comments }] := by
    rw [members_ofBody, hmembers, happend]
    have hfields := congrArg (fun h => h.members.fields) hgain
    refine hfields.trans ?_
    rw [Declared.gain, show d.readField? = some (w.field o) from rfl,
      show d.readMethod? = none from rfl]
    simp [Harvest.takeField, Harvest.takeMethod, Harvest.wait, Harvest.dropPending, Harvest.bare,
      Declared.annotations, Declared.comments, d]
  refine ⟨d.tokens, fun hkept => ?_⟩
  have hfields := hkept.1
  rw [(Declared.members_tokens (d := d) hl ⟨rfl, rfl⟩).1, hboth] at hfields
  rcases List.mem_append.1 (List.singleton_sublist.1 hfields) with hmem | hmem
  · exact hfresh (List.mem_map_of_mem (f := (·.name)) hmem)
  · have hsame := congrArg Field.annotations (List.mem_singleton.1 hmem)
    rw [hpending] at hsame
    cases hsame

end InitializedField

namespace Members

open InitializedField (Kept LeavesNothing)
open Extractor (after field method annotations)

/-- A field with an initializer hides no member of the body behind it, whatever that is, if and only
if nothing that is begun in the initializer is open behind it. -/
theorem kept_iff_leavesNothing {o : Owner} (hl : o.language.memberOrder = .typeFirst)
    (f : InitializedField o.language) : (∀ body, Kept o f body) ↔ f.LeavesNothing o := by
  constructor
  · intro hkept
    have hlist : ∀ modifiers list,
        after o (method .idle) f.tokens ≠ method (.typeParamList modifiers list) := by
      intro modifiers list h
      obtain ⟨body, hnot⟩ := InitializedField.not_kept_of_list hl h
      exact hnot (hkept body)
    refine ⟨hlist, fun n h => ?_⟩
    have hidle : after o (method .idle) f.tokens = method .idle := by
      rcases InitializedField.method_tokens hl f with hidle | ⟨modifiers, list, h⟩
      · exact hidle
      · exact absurd h (hlist modifiers list)
    obtain ⟨body, hnot⟩ := InitializedField.not_kept_of_annotation hl hidle h
    exact hnot (hkept body)
  · exact fun h body => h.kept hl body

theorem isOperator_of {t : TokenTree} {op : String} (h : t.kind = .operator ∧ t.text = op) :
    t.value.isOperator op = true :=
  Token.isOperator_iff.2 h

/-- A field of the class `A` whose initializer has three tokens. -/
def sumField {type name equals first op second stop : TokenTree}
    (htype : type.kind = .keyword ∧ type.text = "int")
    (hname : name.kind = .identifier ∧ name.text = "x")
    (hequals : equals.kind = .operator ∧ equals.text = "=")
    (hfirst : first.kind = .identifier) (hop : op.kind = .operator)
    (hsecond : second.kind = .identifier)
    (hstop : stop.kind = .separator ∧ stop.text = ";") : InitializedField .java where
  type := {
    word := type
    named := .simple "int"
    starts := by
      have hint : Language.java.has .type "int" = true := by decide
      rw [TypeMachine.starts, show type.value.kind = _ from htype.1,
        show type.value.text = _ from htype.2, hint, Bool.true_or]
    parsed := by
      rw [htype.2]
      exact TypeRef.parse_word (by decide)
    marked := by simp }
  name
  equals
  value := [first, op, second]
  stop
  isName := ⟨hname.1, hname.2 ▸ by decide⟩
  isEquals := isOperator_of hequals
  nonempty := by simp
  inside := by
    intro t ht
    refine Token.isSeparator_eq_false ?_ _
    simp only [List.mem_cons, List.not_mem_nil, or_false] at ht
    show t.kind ≠ _
    rcases ht with rfl | rfl | rfl
    · rw [hfirst]
      decide
    · rw [hop]
      decide
    · rw [hsecond]
      decide
  stops := isSeparator_of hstop

/-- A sum hides nothing. -/
theorem kept_iff_leavesNothing_sum : ∃ f : InitializedField .java,
    f.tokens = tokensOf .java "int x = a + b;" ∧ f.LeavesNothing ⟨.java, ["A"]⟩ ∧
      ∀ body, Kept ⟨.java, ["A"]⟩ f body := by
  have hwords : (tokensOf .java "int x = a + b;").map (fun t => (t.kind, t.text)) =
      [(.keyword, "int"), (.identifier, "x"), (.operator, "="), (.identifier, "a"),
        (.operator, "+"), (.identifier, "b"), (.separator, ";")] := by decide +kernel
  simp only [List.map_eq_cons_iff, List.map_eq_nil_iff, Prod.mk.injEq] at hwords
  obtain ⟨type, _, htokens, htype, name, _, rfl, hname, equals, _, rfl, hequals, first, _, rfl,
    hfirst, op, _, rfl, hop, second, _, rfl, hsecond, stop, _, rfl, hstop, rfl⟩ := hwords
  let f := sumField htype hname hequals hfirst.1 hop.1 hsecond.1 hstop
  have hl : (⟨.java, ["A"]⟩ : Owner).language.memberOrder = .typeFirst := rfl
  have hleaves : f.LeavesNothing ⟨.java, ["A"]⟩ := by
    refine InitializedField.leavesNothing_of_plain hl fun t ht => ?_
    replace ht : t ∈ [first, op, second] := ht
    simp only [List.mem_cons, List.not_mem_nil, or_false] at ht
    rcases ht with rfl | rfl | rfl
    · exact .of_word (Or.inr hfirst.1)
    · exact .of_operator (isOperator_of hop) (by decide)
    · exact .of_word (Or.inr hsecond.1)
  exact ⟨f, htokens.symm, hleaves, (kept_iff_leavesNothing hl f).2 hleaves⟩

/-- A comparison hides the method behind it: the sign for less is taken for the start of a list of
type parameters. -/
theorem not_kept_comparison : ∃ f : InitializedField .java,
    f.tokens = tokensOf .java "int x = a < b;" ∧
      ¬ Kept ⟨.java, ["A"]⟩ f (tokensOf .java "void f() \x7b\x7d") := by
  have hwords : (tokensOf .java "int x = a < b;").map (fun t => (t.kind, t.text)) =
      [(.keyword, "int"), (.identifier, "x"), (.operator, "="), (.identifier, "a"),
        (.operator, "<"), (.identifier, "b"), (.separator, ";")] := by decide +kernel
  have halone : (ofBody ⟨.java, ["A"]⟩ .classLike
      (tokensOf .java "void f() \x7b\x7d")).members.methods.length = 1 := by decide +kernel
  have hbehind : (ofBody ⟨.java, ["A"]⟩ .classLike (tokensOf .java "int x = a < b;" ++
      tokensOf .java "void f() \x7b\x7d")).members.methods.length = 0 := by decide +kernel
  simp only [List.map_eq_cons_iff, List.map_eq_nil_iff, Prod.mk.injEq] at hwords
  obtain ⟨type, _, htokens, htype, name, _, rfl, hname, equals, _, rfl, hequals, first, _, rfl,
    hfirst, op, _, rfl, hop, second, _, rfl, hsecond, stop, _, rfl, hstop, rfl⟩ := hwords
  let f := sumField htype hname hequals hfirst.1 hop.1 hsecond.1 hstop
  refine ⟨f, htokens.symm, fun hkept => ?_⟩
  have hlength := hkept.2.length_le
  rw [show f.tokens = _ from htokens.symm, halone, hbehind] at hlength
  omega

end Members

end Outline
